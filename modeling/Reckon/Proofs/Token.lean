import Reckon.Proofs.Reached
import Reckon.Statement.Value

/-!
# Tokens of a text

A machine decides character by character where literals end, and combines
operands in between.  This module separates the two: a *scan* holds the tokens
of a text up to the first literal that is refused, without any stack, and what
is pending *accepts* tokens without any text.  `reached_read` shows that a
machine does nothing else than carry out the scan of its text.
-/

namespace Reckon

/-- What a text consists of once its literals are read. -/
inductive Token where
  /-- A literal and the double that it reads as. -/
  | operand (literal : List Char) (value : Float)
  | symbol (symbol : Symbol)
  deriving DecidableEq, Repr

/-- Tokens up to the first refusal, and its cause if there is one. -/
@[ext] structure Scan where
  tokens : List Token
  refusal : Option Rejection
  deriving DecidableEq, Repr

/-- A character is the symbol that is written with it. -/
theorem Symbol.ofChar?_eq_some_iff {character : Char} {symbol : Symbol} :
    ofChar? character = some symbol ↔ character = symbol.toChar := by
  constructor
  · rw [ofChar?.eq_def]
    intro written
    split at written <;> cases written <;> rfl
  · intro written
    subst written
    exact ofChar?_toChar symbol

namespace Scan

def single (token : Token) : Scan :=
  ⟨[token], none⟩

/-- Two scans one behind the other; nothing follows a refusal. -/
def followedBy (first later : Scan) : Scan :=
  match first.refusal with
  | none => ⟨first.tokens ++ later.tokens, later.refusal⟩
  | some _ => first

/-- What the end of a literal gives.  Nothing comes of an empty one; text that
does not read as a number is refused or dropped. -/
def ofLiteral (tolerance : Tolerance) (literal : List Char) : Scan :=
  if literal = [] then ⟨[], none⟩
  else
    match Literal.read? literal with
    | some value => single (.operand literal value)
    | none =>
        match tolerance with
        | .strict => ⟨[], some (.malformed (String.ofList literal))⟩
        | .lenient => ⟨[], none⟩

/-- The scan of a text behind the beginning of a literal.  A literal ends at
every symbol but an opening bracket, and at the end of the text. -/
def ofText (tolerance : Tolerance) (limit : Nat) :
    (literal text : List Char) → Scan
  | literal, [] => ofLiteral tolerance literal
  | literal, character :: rest =>
      match Symbol.ofChar? character with
      | none =>
          if literal.length < limit then
            ofText tolerance limit (literal ++ [character]) rest
          else ⟨[], some (.overlong limit)⟩
      | some .openBracket =>
          if tolerance = .strict ∧ literal ≠ [] then
            ⟨[], some (.literalAtBracket (String.ofList literal))⟩
          else
            (single (.symbol .openBracket)).followedBy
              (ofText tolerance limit literal rest)
      | some symbol =>
          (ofLiteral tolerance literal).followedBy
            ((single (.symbol symbol)).followedBy (ofText tolerance limit [] rest))

theorem followedBy_assoc (first second third : Scan) :
    (first.followedBy second).followedBy third =
      first.followedBy (second.followedBy third) := by
  rcases first with ⟨tokens, _ | cause⟩
  · rcases second with ⟨later, _ | cause⟩
    · simp [followedBy, List.append_assoc]
    · rfl
  · rfl

@[simp] theorem nil_followedBy (later : Scan) :
    followedBy ⟨[], none⟩ later = later := rfl

@[simp] theorem followedBy_nil (first : Scan) :
    first.followedBy ⟨[], none⟩ = first := by
  rcases first with ⟨tokens, _ | cause⟩
  · simp [followedBy]
  · rfl

@[simp] theorem ofLiteral_nil (tolerance : Tolerance) :
    ofLiteral tolerance [] = ⟨[], none⟩ := rfl

variable {tolerance : Tolerance} {limit : Nat} {character : Char}
variable {literal text rest : List Char}

theorem ofText_of_ofChar?_eq_none (plain : Symbol.ofChar? character = none)
    (room : literal.length < limit) :
    ofText tolerance limit literal (character :: rest) =
      ofText tolerance limit (literal ++ [character]) rest := by
  simp only [ofText, plain, if_pos room]

@[simp] theorem ofText_openBracket :
    ofText tolerance limit [] ('(' :: rest) =
      (single (.symbol .openBracket)).followedBy
        (ofText tolerance limit [] rest) := by
  simp [ofText, Symbol.ofChar?]

/-- Every symbol but an opening bracket ends the literal in front of it. -/
theorem ofText_symbol {symbol : Symbol}
    (written : Symbol.ofChar? character = some symbol)
    (ends : symbol ≠ .openBracket) :
    ofText tolerance limit literal (character :: rest) =
      (ofLiteral tolerance literal).followedBy
        ((single (.symbol symbol)).followedBy (ofText tolerance limit [] rest)) := by
  cases symbol with
  | openBracket => exact (ends rfl).elim
  | binary operator => simp only [ofText, written]
  | closeBracket => simp only [ofText, written]

/-- The literal in front of a text ends before its first character. -/
def EndsLiteral (text : List Char) : Prop :=
  ∀ character ∈ text.head?,
    ∃ symbol, Symbol.ofChar? character = some symbol ∧ symbol ≠ .openBracket

theorem endsLiteral_operator (operator : Operator) (rest : List Char) :
    EndsLiteral (operator.toChar :: rest) := by
  intro character first
  cases first
  exact ⟨.binary operator, Symbol.ofChar?_toChar (.binary operator), by simp⟩

theorem endsLiteral_closeBracket (rest : List Char) : EndsLiteral (')' :: rest) := by
  intro character first
  cases first
  exact ⟨.closeBracket, rfl, by simp⟩

/-- Text may be scanned in two parts where the second one ends a literal. -/
theorem ofText_append (ends : EndsLiteral rest) :
    ofText tolerance limit literal (text ++ rest) =
      (ofText tolerance limit literal text).followedBy
        (ofText tolerance limit [] rest) := by
  induction text generalizing literal with
  | nil =>
      cases rest with
      | nil => simp [ofText]
      | cons character rest =>
          rcases ends character rfl with ⟨symbol, written, notOpening⟩
          rw [List.nil_append, ofText_symbol written notOpening,
            ofText_symbol written notOpening]
          rfl
  | cons character text ih =>
      rw [List.cons_append, ofText, ofText]
      cases Symbol.ofChar? character with
      | none =>
          dsimp only
          split
          · exact ih
          · rfl
      | some symbol =>
          cases symbol with
          | openBracket =>
              dsimp only
              split
              · rfl
              · rw [ih, followedBy_assoc]
          | binary operator =>
              dsimp only
              rw [ih, followedBy_assoc, followedBy_assoc]
          | closeBracket =>
              dsimp only
              rw [ih, followedBy_assoc, followedBy_assoc]

theorem ofText_append_operator (operator : Operator) (front back : List Char) :
    ofText tolerance limit [] (front ++ operator.toChar :: back) =
      (ofText tolerance limit [] front).followedBy
        ((single (.symbol (.binary operator))).followedBy
          (ofText tolerance limit [] back)) := by
  have written : Symbol.ofChar? operator.toChar = some (.binary operator) :=
    Symbol.ofChar?_toChar (.binary operator)
  rw [ofText_append (endsLiteral_operator operator back),
    ofText_symbol written (by simp), ofLiteral_nil, nil_followedBy]

theorem ofText_group (text : List Char) :
    ofText tolerance limit [] ('(' :: (text ++ [')'])) =
      (single (.symbol .openBracket)).followedBy
        ((ofText tolerance limit [] text).followedBy
          (single (.symbol .closeBracket))) := by
  have written : Symbol.ofChar? ')' = some .closeBracket := rfl
  rw [ofText_openBracket, ofText_append (endsLiteral_closeBracket []),
    ofText_symbol written (by simp)]
  rfl

/-- Characters that are no symbols belong to one literal. -/
theorem ofText_literal (plain : ∀ character ∈ text, Symbol.ofChar? character = none)
    (room : literal.length + text.length ≤ limit) :
    ofText tolerance limit literal text = ofLiteral tolerance (literal ++ text) := by
  induction text generalizing literal with
  | nil => simp [ofText]
  | cons character rest ih =>
      rw [List.length_cons] at room
      rw [ofText_of_ofChar?_eq_none (plain character List.mem_cons_self) (by omega),
        ih fun other member => plain other (List.mem_cons_of_mem _ member)]
      · rw [List.append_assoc, List.singleton_append]
      · rw [List.length_append, List.length_singleton]
        omega

end Scan

namespace Pending

/-- Takes the topmost symbol off for a closing bracket. -/
def close (pending : Pending) : Outcome Pending Unit :=
  pending.takeSymbol.andThen fun symbol pending =>
    if symbol = .openBracket then .done () pending
    else .logged (.discarded symbol) pending

/-- Puts an operand on its stack, or lets the pending symbols give way to a
symbol and adds it. -/
def accept (reduction : Reduction) (token : Token) (pending : Pending) :
    Outcome Pending Unit :=
  match token with
  | .operand _ value => .logged (.pushed value) (pending.addOperand value)
  | .symbol .openBracket => .done () (pending.addSymbol .openBracket)
  | .symbol .closeBracket =>
      (pending.giveWay reduction .closeBracket).andThen fun _ pending =>
        pending.close
  | .symbol (.binary operator) =>
      (pending.giveWay reduction (.binary operator)).andThen fun _ pending =>
        .done () (pending.addSymbol (.binary operator))

/-- Accepts tokens one after the other, up to the first that fails. -/
def acceptAll (reduction : Reduction) : List Token → Pending → Outcome Pending Unit
  | [], pending => .done () pending
  | token :: rest, pending =>
      (pending.accept reduction token).andThen fun _ pending =>
        pending.acceptAll reduction rest

variable {reduction : Reduction} {pending : Pending}

theorem reached_close :
    pending.close.reached =
      match pending.operators with
      | [] => .error .noOperator
      | _ :: below => .ok { pending with operators := below } := by
  rw [close, takeSymbol]
  rcases pending with ⟨operands, _ | ⟨top, below⟩⟩
  · rfl
  · rw [Outcome.done_andThen]
    split <;> rfl

@[simp] theorem reached_acceptAll_nil :
    (pending.acceptAll reduction []).reached = .ok pending := rfl

theorem reached_acceptAll_cons (token : Token) (rest : List Token) :
    (pending.acceptAll reduction (token :: rest)).reached =
      (pending.accept reduction token).reached.bind fun next =>
        (next.acceptAll reduction rest).reached := by
  rw [acceptAll, Outcome.reached_andThen]

theorem reached_acceptAll_append (front back : List Token) :
    (pending.acceptAll reduction (front ++ back)).reached =
      (pending.acceptAll reduction front).reached.bind fun next =>
        (next.acceptAll reduction back).reached := by
  induction front generalizing pending with
  | nil => rfl
  | cons token front ih =>
      rw [List.cons_append, reached_acceptAll_cons, reached_acceptAll_cons,
        bind_assoc]
      exact congrArg _ (funext fun next => ih)

end Pending

namespace Scan

/-- Accepts the tokens of a scan and then fails if the scan ends in a
refusal. -/
def carriedOut (reduction : Reduction) (scan : Scan) (pending : Pending) :
    Except Rejection Pending :=
  (pending.acceptAll reduction scan.tokens).reached.bind fun pending =>
    match scan.refusal with
    | none => .ok pending
    | some cause => .error cause

variable {reduction : Reduction} {pending : Pending}

theorem carriedOut_followedBy (first later : Scan) :
    (first.followedBy later).carriedOut reduction pending =
      (first.carriedOut reduction pending).bind fun pending =>
        later.carriedOut reduction pending := by
  rcases first with ⟨tokens, _ | cause⟩
  · simp only [followedBy, carriedOut, Pending.reached_acceptAll_append,
      bind_assoc, ok_bind]
  · simp only [followedBy, carriedOut, bind_assoc, error_bind]

theorem carriedOut_single (token : Token) :
    (single token).carriedOut reduction pending =
      (pending.accept reduction token).reached := by
  simp only [single, carriedOut, Pending.reached_acceptAll_cons,
    Pending.reached_acceptAll_nil, bind_ok]

theorem carriedOut_eq_ok_iff {scan : Scan} {next : Pending} :
    scan.carriedOut reduction pending = .ok next ↔
      scan.refusal = none ∧
        (pending.acceptAll reduction scan.tokens).reached = .ok next := by
  rcases scan with ⟨tokens, _ | cause⟩
  · simp [carriedOut]
  · simp [carriedOut, bind_eq_ok_iff]

end Scan

namespace Machine

variable {machine : Machine}

theorem reached_onPending (part : Pending → Outcome Pending Unit) :
    (machine.onPending part).reached =
      (part machine.pending).reached.bind fun pending =>
        .ok { machine with pending } :=
  Outcome.reached_within _ _

/-- Between literals, clearing the draft changes nothing. -/
theorem clear_draft_of_text_eq_nil (between : machine.draft.text = []) :
    machine.draft.clear = machine.draft :=
  Draft.ext rfl between.symm

theorem endLiteral_of_read? (underWay : machine.draft.text ≠ []) :
    machine.endLiteral =
      match Literal.read? machine.draft.text with
      | some value =>
          .logged (.pushed value)
            { machine with
              pending := machine.pending.addOperand value
              draft := machine.draft.clear }
      | none =>
          match machine.settings.tolerance with
          | .strict => .fail (.malformed machine.draft.toString) machine
          | .lenient =>
              .logged (.dropped machine.draft.text)
                { machine with draft := machine.draft.clear } := by
  have nonempty : machine.draft.isEmpty = false := by
    simpa [Draft.isEmpty] using underWay
  rw [endLiteral, Draft.value?, nonempty]
  cases Literal.read? machine.draft.text <;> rfl

theorem reached_endLiteral :
    machine.endLiteral.reached =
      ((Scan.ofLiteral machine.settings.tolerance machine.draft.text).carriedOut
        machine.settings.reduction machine.pending).bind fun pending =>
          .ok { machine with pending, draft := machine.draft.clear } := by
  by_cases between : machine.draft.text = []
  · rw [endLiteral_of_text_eq_nil between, between,
      clear_draft_of_text_eq_nil between]
    rfl
  · simp only [endLiteral_of_read? between, Scan.ofLiteral, if_neg between]
    cases Literal.read? machine.draft.text with
    | some value => rfl
    | none =>
        cases machine.settings.tolerance with
        | strict => rfl
        | lenient => rfl

theorem openGroup_eq :
    machine.openGroup =
      if machine.settings.tolerance = .strict ∧ machine.draft.text ≠ [] then
        .fail (.literalAtBracket (String.ofList machine.draft.text)) machine
      else machine.addSymbol .openBracket := by
  simp [openGroup, Draft.isEmpty, Draft.toString]

theorem reached_closeGroup :
    machine.closeGroup.reached =
      machine.pending.close.reached.bind fun pending =>
        .ok { machine with pending } := by
  rw [closeGroup, takeSymbol, onPending, Pending.close, Pending.takeSymbol]
  rcases machine with ⟨settings, ⟨operands, _ | ⟨top, below⟩⟩, draft⟩
  · rfl
  · simp only [Outcome.within_done, Outcome.done_andThen]
    split <;> rfl

theorem read_cons (character : Char) (rest : List Char) :
    machine.read (character :: rest) =
      (machine.readChar character).andThen fun _ machine => machine.read rest := by
  rw [read, readChars_cons, Outcome.andThen_assoc]
  rfl

theorem reached_readSymbol {symbol : Symbol} (ends : symbol ≠ .openBracket) :
    (machine.readSymbol symbol).reached =
      (((Scan.ofLiteral machine.settings.tolerance machine.draft.text).followedBy
        (.single (.symbol symbol))).carriedOut machine.settings.reduction
          machine.pending).bind fun pending =>
            .ok { machine with pending, draft := machine.draft.clear } := by
  rw [Scan.carriedOut_followedBy]
  simp only [Scan.carriedOut_single]
  cases symbol with
  | openBracket => exact (ends rfl).elim
  | binary operator =>
      simp only [readSymbol, makeWay, Outcome.reached_andThen, reached_endLiteral,
        giveWay, reached_onPending, bind_assoc, ok_bind, Pending.accept]
      rfl
  | closeBracket =>
      simp only [readSymbol, makeWay, Outcome.reached_andThen, reached_endLiteral,
        giveWay, reached_onPending, bind_assoc, ok_bind, Pending.accept,
        reached_closeGroup]

/-- A machine carries out the scan of its text. -/
theorem reached_read (text : List Char) :
    (machine.read text).reached =
      ((Scan.ofText machine.settings.tolerance machine.draft.capacity
        machine.draft.text text).carriedOut machine.settings.reduction
          machine.pending).bind fun pending =>
            .ok { machine with pending, draft := machine.draft.clear } := by
  induction text generalizing machine with
  | nil => exact reached_endLiteral
  | cons character rest ih =>
      rw [read_cons, Outcome.reached_andThen, readChar]
      cases written : Symbol.ofChar? character with
      | none =>
          dsimp only
          by_cases room : machine.draft.text.length < machine.draft.capacity
          · rw [Scan.ofText_of_ofChar?_eq_none written room]
            simp only [extendLiteral, Draft.extend, dif_pos room,
              Outcome.reached_done, ok_bind, ih]
            rfl
          · simp [extendLiteral, Draft.extend, room, Scan.ofText, written,
              Scan.carriedOut]
      | some symbol =>
          dsimp only
          by_cases opening : symbol = .openBracket
          · subst opening
            rw [readSymbol, openGroup_eq, Scan.ofText, written]
            dsimp only
            split
            · rfl
            · simp only [addSymbol, Outcome.reached_done, ok_bind, ih,
                Scan.carriedOut_followedBy, Scan.carriedOut_single]
              rfl
          · rw [reached_readSymbol opening, Scan.ofText_symbol written opening,
              ← Scan.followedBy_assoc]
            simp only [bind_assoc, ok_bind, ih, Scan.carriedOut_followedBy,
              Draft.capacity_clear, Draft.text_clear]
            rfl

theorem result_read_conclude (text : List Char) :
    ((machine.read text).andThen fun _ machine => machine.conclude).result =
      ((Scan.ofText machine.settings.tolerance machine.draft.capacity
        machine.draft.text text).carriedOut machine.settings.reduction
          machine.pending).bind fun pending =>
            (pending.conclude machine.settings.reduction).result := by
  rw [Outcome.result_andThen, reached_read]
  simp only [bind_assoc, ok_bind]
  rfl

end Machine

/-- The value of a statement comes from its tokens. -/
theorem Statement.value_eq (settings : Settings) (statement : String) :
    value settings statement =
      (prepare settings.tolerance statement).bind fun text =>
        ((Scan.ofText settings.tolerance settings.literalLimit [] text).carriedOut
          settings.reduction .empty).bind fun pending =>
            (pending.conclude settings.reduction).result := by
  rw [value, run]
  cases prepare settings.tolerance statement with
  | error cause => rfl
  | ok text => exact Machine.result_read_conclude text

end Reckon
