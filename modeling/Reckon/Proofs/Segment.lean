import Reckon.Proofs.Cause

/-!
# Segments of the pending symbols

The opening brackets among the pending symbols cut them into segments, one for each open
group and one for what is outside of all groups.  Inside a segment eager reduction keeps
the ranks strictly rising towards the top, so that a segment holds two operators at the
most.  Single reduction may leave any number of operators there, but all of them below
the topmost one are additive.
-/

namespace Reckon

def Symbol.isAdditive : Symbol → Bool
  | binary operator => operator.isAdditive
  | openBracket | closeBracket => false

/-- How the symbols of a segment stand, topmost first. -/
def Stepped : Reduction → (segment : List Symbol) → Prop
  | .eager, segment => segment.Pairwise fun upper lower => lower.rank < upper.rank
  | .single, segment => ∀ lower ∈ segment.tail, lower.isAdditive

/-- The symbols above the topmost opening bracket. -/
def topSegment (operators : List Symbol) : List Symbol :=
  operators.takeWhile (· ≠ .openBracket)

/-- Pending symbols, topmost first, all of whose segments are stepped. -/
structure Layered (reduction : Reduction) (operators : List Symbol) : Prop where
  noClosing : .closeBracket ∉ operators
  stepped : ∀ segment ∈ operators.splitOn .openBracket, Stepped reduction segment

variable {reduction : Reduction} {top symbol : Symbol} {segment operators below : List Symbol}

@[simp] theorem topSegment_openBracket : topSegment (.openBracket :: below) = [] := rfl

theorem topSegment_cons (notOpening : top ≠ .openBracket) (below : List Symbol) :
    topSegment (top :: below) = top :: topSegment below :=
  List.takeWhile_cons_of_pos (by simpa using notOpening)

theorem splitOn_openBracket :
    (.openBracket :: below).splitOn .openBracket = [] :: below.splitOn Symbol.openBracket := by
  rw [List.splitOn_cons_eq_if_modifyHead, if_pos (by simp)]

theorem exists_splitOn (operators : List Symbol) :
    ∃ rest, operators.splitOn .openBracket = topSegment operators :: rest := by
  induction operators with
  | nil => exact ⟨[], List.splitOn_nil _⟩
  | cons top below ih =>
      rcases ih with ⟨rest, cut⟩
      by_cases opening : top = .openBracket
      · subst opening
        exact ⟨_, splitOn_openBracket⟩
      · refine ⟨rest, ?_⟩
        rw [List.splitOn_cons_eq_if_modifyHead, if_neg (by simpa using opening), cut,
          topSegment_cons opening]
        rfl

/-- A symbol other than an opening bracket lies in the segment of the symbols under it. -/
theorem exists_splitOn_cons (notOpening : top ≠ .openBracket) (below : List Symbol) :
    ∃ rest, below.splitOn .openBracket = topSegment below :: rest ∧
      (top :: below).splitOn .openBracket = (top :: topSegment below) :: rest := by
  rcases exists_splitOn below with ⟨rest, cut⟩
  refine ⟨rest, cut, ?_⟩
  rw [List.splitOn_cons_eq_if_modifyHead, if_neg (by simpa using notOpening), cut]
  rfl

theorem of_mem_splitOn (member : segment ∈ operators.splitOn .openBracket) :
    ∀ symbol ∈ segment, symbol ∈ operators ∧ symbol ≠ .openBracket := by
  induction operators generalizing segment with
  | nil =>
      rw [List.splitOn_nil, List.mem_singleton] at member
      simp [member]
  | cons top below ih =>
      have later : ∀ {segment}, segment ∈ below.splitOn Symbol.openBracket →
          ∀ symbol ∈ segment, symbol ∈ top :: below ∧ symbol ≠ .openBracket := by
        intro segment member symbol isIn
        exact (ih member symbol isIn).imp_left (List.mem_cons_of_mem top)
      by_cases opening : top = .openBracket
      · subst opening
        rw [splitOn_openBracket, List.mem_cons] at member
        rcases member with rfl | member
        · simp
        · exact later member
      · rcases exists_splitOn_cons opening below with ⟨rest, cut, cutAll⟩
        rw [cutAll, List.mem_cons] at member
        rcases member with rfl | member
        · rw [List.forall_mem_cons]
          exact ⟨⟨List.mem_cons_self, opening⟩, later (by simp [cut])⟩
        · exact later (by simp [cut, member])

theorem Stepped.nil : Stepped reduction [] := by
  cases reduction <;> simp [Stepped]

theorem Stepped.tail (stepped : Stepped reduction (top :: segment)) :
    Stepped reduction segment := by
  cases reduction with
  | eager => exact List.Pairwise.of_cons stepped
  | single =>
      intro lower member
      exact stepped lower (List.mem_of_mem_tail member)

namespace Layered

theorem nil : Layered reduction [] where
  noClosing := List.not_mem_nil
  stepped := by simp [Stepped.nil]

theorem stepped_topSegment (layered : Layered reduction operators) :
    Stepped reduction (topSegment operators) := by
  rcases exists_splitOn operators with ⟨rest, cut⟩
  exact layered.stepped _ (by simp [cut])

theorem openBracket (layered : Layered reduction below) :
    Layered reduction (.openBracket :: below) where
  noClosing := by simp [layered.noClosing]
  stepped := by
    rw [splitOn_openBracket, List.forall_mem_cons]
    exact ⟨.nil, layered.stepped⟩

theorem cons (layered : Layered reduction below) (notClosing : .closeBracket ≠ top)
    (notOpening : top ≠ .openBracket) (stepped : Stepped reduction (top :: topSegment below)) :
    Layered reduction (top :: below) where
  noClosing := by simp [layered.noClosing, notClosing]
  stepped := by
    rcases exists_splitOn_cons notOpening below with ⟨rest, cut, cutAll⟩
    have others := layered.stepped
    rw [cut, List.forall_mem_cons] at others
    rw [cutAll, List.forall_mem_cons]
    exact ⟨stepped, others.2⟩

theorem tail (layered : Layered reduction (top :: below)) : Layered reduction below where
  noClosing member := layered.noClosing (List.mem_cons_of_mem top member)
  stepped := by
    have stepped := layered.stepped
    by_cases opening : top = .openBracket
    · subst opening
      rw [splitOn_openBracket, List.forall_mem_cons] at stepped
      exact stepped.2
    · rcases exists_splitOn_cons opening below with ⟨rest, cut, cutAll⟩
      rw [cutAll, List.forall_mem_cons] at stepped
      rw [cut, List.forall_mem_cons]
      exact ⟨stepped.1.tail, stepped.2⟩

theorem of_suffix (layered : Layered reduction operators) (isSuffix : below <:+ operators) :
    Layered reduction below := by
  rcases isSuffix with ⟨above, rfl⟩
  induction above with
  | nil => exact layered
  | cons top above ih => exact ih layered.tail

end Layered

theorem isAdditive_of_rank_lt {lower upper : Operator}
    (rising : (Symbol.binary lower).rank < (Symbol.binary upper).rank) :
    lower.isAdditive = true ∧ upper.isAdditive = false := by
  cases lower <;> cases upper <;> simp [Symbol.rank, Operator.isAdditive] at rising ⊢

namespace Layered

/-- Two operators whose ranks rise are an additive one and a multiplicative one on top of it,
and there is no room for a third. -/
theorem eager_cases (layered : Layered .eager operators)
    (member : segment ∈ operators.splitOn .openBracket) :
    segment = [] ∨ (∃ only, segment = [.binary only]) ∨
      ∃ upper lower, segment = [.binary upper, .binary lower] ∧
        upper.isAdditive = false ∧ lower.isAdditive = true := by
  have stepped := layered.stepped segment member
  have isBinary : ∀ symbol ∈ segment, ∃ operator, symbol = .binary operator := by
    intro symbol isIn
    have pending := of_mem_splitOn member symbol isIn
    cases symbol with
    | binary operator => exact ⟨operator, rfl⟩
    | openBracket => exact (pending.2 rfl).elim
    | closeBracket => exact (layered.noClosing pending.1).elim
  match segment with
  | [] => exact .inl rfl
  | [top] =>
      rcases isBinary top (by simp) with ⟨only, rfl⟩
      exact .inr (.inl ⟨only, rfl⟩)
  | top :: bottom :: rest =>
      rcases isBinary top (by simp) with ⟨upper, rfl⟩
      rcases isBinary bottom (by simp) with ⟨lower, rfl⟩
      rw [Stepped, List.pairwise_cons, List.pairwise_cons] at stepped
      have additive := isAdditive_of_rank_lt (stepped.1 (.binary lower) List.mem_cons_self)
      cases rest with
      | nil => exact .inr (.inr ⟨upper, lower, rfl, additive.2, additive.1⟩)
      | cons third rest =>
          rcases isBinary third (by simp) with ⟨lowest, rfl⟩
          have again := isAdditive_of_rank_lt (stepped.2.1 (.binary lowest) List.mem_cons_self)
          rw [again.2] at additive
          cases additive.1

theorem length_topSegment_le (layered : Layered .eager operators) :
    (topSegment operators).length ≤ 2 := by
  rcases exists_splitOn operators with ⟨rest, cut⟩
  rcases layered.eager_cases (by rw [cut]; exact List.mem_cons_self) with
    none | ⟨only, single⟩ | ⟨upper, lower, pair, _⟩
  · simp [none]
  · simp [single]
  · simp [pair]

theorem length_le (layered : Layered .eager operators) :
    operators.length ≤ 3 * operators.count .openBracket + 2 := by
  have bounded : operators.length ≤
      3 * operators.count .openBracket + (topSegment operators).length := by
    induction operators with
    | nil => exact Nat.zero_le _
    | cons top below ih =>
        have earlier := ih layered.tail
        have short := layered.tail.length_topSegment_le
        by_cases opening : top = .openBracket
        · subst opening
          rw [List.count_cons_self, List.length_cons]
          omega
        · rw [List.count_cons_of_ne opening, topSegment_cons opening, List.length_cons,
            List.length_cons]
          omega
  exact bounded.trans (Nat.add_le_add_left layered.length_topSegment_le _)

end Layered

/-- An operator that the topmost symbol waits for keeps the top segment stepped. -/
theorem Layered.stepped_cons {operator : Operator} (layered : Layered reduction operators)
    (waits : ∀ top ∈ operators.head?, top.waitsFor (.binary operator) = true) :
    Stepped reduction (.binary operator :: topSegment operators) := by
  have stepped := layered.stepped_topSegment
  rcases operators with _ | ⟨top, below⟩
  · cases reduction <;> simp [Stepped, topSegment]
  · have waits := waits top rfl
    by_cases opening : top = .openBracket
    · subst opening
      cases reduction <;> simp [Stepped]
    · have rising : top.rank < (Symbol.binary operator).rank := by
        simpa [Symbol.waitsFor, opening] using waits
      rw [topSegment_cons opening] at stepped ⊢
      cases reduction with
      | eager =>
          rw [Stepped, List.pairwise_cons] at stepped ⊢
          refine ⟨?_, List.pairwise_cons.mpr stepped⟩
          rw [List.forall_mem_cons]
          exact ⟨rising, fun lower member => (stepped.1 lower member).trans rising⟩
      | single =>
          rw [Stepped, List.tail_cons, List.forall_mem_cons]
          refine ⟨?_, stepped⟩
          cases top with
          | binary lower => exact (isAdditive_of_rank_lt rising).1
          | openBracket => exact (opening rfl).elim
          | closeBracket => exact (layered.noClosing List.mem_cons_self).elim

namespace Pending

variable {incoming : Symbol} {pending next : Pending} {operands : List Float}

theorem length_events_combine (symbol : Symbol) (pending : Pending) :
    (combine symbol pending).events.length ≤ 1 := by
  rw [combine]
  split
  · dsimp only
    split <;> simp [Outcome.logged, Outcome.fail]
  · simp [Outcome.fail]

/-- Under eager reduction nothing is touched from the topmost opening bracket on. -/
theorem length_giveWayFrom_eager (incoming : Symbol) (operators : List Symbol)
    (operands : List Float) :
    (giveWayFrom .eager incoming operators operands).events.length ≤
        (topSegment operators).length ∧
      operators.length ≤
        (giveWayFrom .eager incoming operators operands).state.operators.length +
          (topSegment operators).length := by
  induction operators generalizing operands with
  | nil => simp [giveWayFrom, Outcome.done]
  | cons top below ih =>
      rw [giveWayFrom]
      split
      · simp [Outcome.done]
      · rename_i yields
        have notOpening : top ≠ .openBracket := by
          rintro rfl
          exact yields rfl
        have single := length_events_combine top ⟨operands, below⟩
        have taken := operators_combine top ⟨operands, below⟩
        rw [topSegment_cons notOpening, List.length_cons, List.length_cons]
        generalize combine top ⟨operands, below⟩ = combined at single taken ⊢
        rcases combined with ⟨cause | ⟨⟩, state, events⟩
        · dsimp only [Outcome.andThen] at single taken ⊢
          rw [taken]
          omega
        · have later := ih state.operands
          dsimp only [Outcome.andThen] at single ⊢
          rw [List.length_append]
          omega

/-- An operator may be added once the others have given way to it. -/
theorem layered_giveWay_binary {operator : Operator}
    (layered : Layered reduction pending.operators)
    (gaveWay : (pending.giveWay reduction (.binary operator)).reached = .ok next) :
    Layered reduction (.binary operator :: next.operators) := by
  have kept := layered.of_suffix (givesWay_of_giveWay gaveWay).operators_suffix
  apply kept.cons (by simp) (by simp)
  cases reduction with
  | eager => exact kept.stepped_cons (reached_giveWay_eq_ok_iff.mp gaveWay).2
  | single =>
      rcases pending with ⟨operands, _ | ⟨top, below⟩⟩
      · cases gaveWay
        apply kept.stepped_cons
        intro top none
        cases none
      · rw [giveWay] at gaveWay
        cases waits : top.waitsFor (.binary operator) with
        | true =>
            rw [giveWayFrom_of_waitsFor waits] at gaveWay
            cases gaveWay
            apply kept.stepped_cons
            intro other isTop
            cases isTop
            exact waits
        | false =>
            rw [reached_giveWayFrom_single waits] at gaveWay
            rcases combine_cases gaveWay with ⟨_, _, _, _, _, rfl, _, _, rfl⟩
            have stepped := layered.stepped_topSegment
            rw [topSegment_cons (by simp)] at stepped
            exact stepped

theorem layered_accept {token : Token} (layered : Layered reduction pending.operators)
    (accepted : (pending.accept reduction token).reached = .ok next) :
    Layered reduction next.operators := by
  match token with
  | .operand literal value =>
      cases accepted
      exact layered
  | .symbol .openBracket =>
      cases accepted
      exact layered.openBracket
  | .symbol (.binary operator) =>
      rw [accept, Outcome.reached_andThen, bind_eq_ok_iff] at accepted
      rcases accepted with ⟨middle, gaveWay, added⟩
      cases added
      exact layered_giveWay_binary layered gaveWay
  | .symbol .closeBracket =>
      rw [accept, Outcome.reached_andThen, bind_eq_ok_iff] at accepted
      rcases accepted with ⟨middle, gaveWay, closed⟩
      have kept := layered.of_suffix (givesWay_of_giveWay gaveWay).operators_suffix
      rw [reached_close] at closed
      rcases middle with ⟨operands, _ | ⟨top, below⟩⟩
      · cases closed
      · cases closed
        exact kept.tail

theorem layered_acceptAll {tokens : List Token} (layered : Layered reduction pending.operators)
    (accepted : (pending.acceptAll reduction tokens).reached = .ok next) :
    Layered reduction next.operators := by
  induction tokens generalizing pending with
  | nil =>
      cases accepted
      exact layered
  | cons token rest ih =>
      rw [reached_acceptAll_cons, bind_eq_ok_iff] at accepted
      rcases accepted with ⟨middle, first, accepted⟩
      exact ih (layered_accept layered first) accepted

end Pending

namespace Machine

variable {machine next : Machine} {text : List Char}

theorem exists_acceptAll_of_readChar {character : Char}
    (reached : (machine.readChar character).reached = .ok next) :
    next.settings = machine.settings ∧
      ∃ tokens, (machine.pending.acceptAll machine.settings.reduction tokens).reached =
        .ok next.pending := by
  rw [readChar] at reached
  cases written : Symbol.ofChar? character with
  | none =>
      rw [written] at reached
      dsimp only [extendLiteral] at reached
      split at reached
      · cases reached
        exact ⟨rfl, [], rfl⟩
      · cases reached
  | some symbol =>
      rw [written] at reached
      by_cases opening : symbol = .openBracket
      · subst opening
        dsimp only [readSymbol] at reached
        rw [openGroup_eq] at reached
        split at reached
        · cases reached
        · cases reached
          exact ⟨rfl, [.symbol .openBracket], rfl⟩
      · dsimp only at reached
        rw [reached_readSymbol opening, bind_eq_ok_iff] at reached
        rcases reached with ⟨pending, carried, rest⟩
        cases rest
        exact ⟨rfl, _, (Scan.carriedOut_eq_ok_iff.mp carried).2⟩

/-- A run accepts tokens one after the other, also if it stops inside a literal. -/
theorem exists_acceptAll_of_readChars
    (reached : (machine.readChars text).reached = .ok next) :
    next.settings = machine.settings ∧
      ∃ tokens, (machine.pending.acceptAll machine.settings.reduction tokens).reached =
        .ok next.pending := by
  induction text generalizing machine with
  | nil =>
      cases reached
      exact ⟨rfl, [], rfl⟩
  | cons character rest ih =>
      rw [readChars_cons, Outcome.reached_andThen, bind_eq_ok_iff] at reached
      rcases reached with ⟨middle, first, later⟩
      rcases exists_acceptAll_of_readChar first with ⟨settings, tokens, accepted⟩
      rcases ih later with ⟨settingsLater, tokensLater, acceptedLater⟩
      refine ⟨settingsLater.trans settings, tokens ++ tokensLater, ?_⟩
      rw [Pending.reached_acceptAll_append, accepted, ok_bind, ← settings, acceptedLater]

theorem exists_acceptAll_of_read (reached : (machine.read text).reached = .ok next) :
    ∃ tokens, (machine.pending.acceptAll machine.settings.reduction tokens).reached =
      .ok next.pending := by
  rw [reached_read, bind_eq_ok_iff] at reached
  rcases reached with ⟨pending, carried, rest⟩
  cases rest
  exact ⟨_, (Scan.carriedOut_eq_ok_iff.mp carried).2⟩

/-- The states that a text is read through: in front of each of its characters, behind the
last one, and after the end of the last literal. -/
def Visits (machine : Machine) (text : List Char) (state : Machine) : Prop :=
  (∃ front, front <+: text ∧ (machine.readChars front).reached = .ok state) ∨
    (machine.read text).reached = .ok state

theorem layered_of_visits {settings : Settings} (visits : (fresh settings).Visits text machine) :
    Layered settings.reduction machine.pending.operators := by
  rcases visits with ⟨front, _, reached⟩ | reached
  · rcases exists_acceptAll_of_readChars reached with ⟨_, tokens, accepted⟩
    exact Pending.layered_acceptAll .nil accepted
  · rcases exists_acceptAll_of_read reached with ⟨tokens, accepted⟩
    exact Pending.layered_acceptAll .nil accepted

/-- The shape of the pending symbols at every moment of a run: no closing bracket is among
them and every segment is stepped.  So a segment holds at most two operators under eager
reduction, which bounds the whole stack by the number of open groups, and no more than two
operators ever give way to a symbol. -/
theorem segments_of_visits {settings : Settings} {state : Machine}
    (visits : (fresh settings).Visits text state) :
    .closeBracket ∉ state.pending.operators ∧
    (∀ segment ∈ state.pending.operators.splitOn .openBracket,
      Stepped settings.reduction segment) ∧
    (settings.reduction = .eager →
      (∀ segment ∈ state.pending.operators.splitOn .openBracket,
        segment = [] ∨ (∃ only, segment = [.binary only]) ∨
          ∃ upper lower, segment = [.binary upper, .binary lower] ∧
            upper.isAdditive = false ∧ lower.isAdditive = true) ∧
      state.pending.operators.length ≤
        3 * state.pending.operators.count .openBracket + 2 ∧
      ∀ incoming operands,
        let gaveWay := Pending.giveWay .eager incoming ⟨operands, state.pending.operators⟩
        gaveWay.events.length ≤ 2 ∧
          state.pending.operators.length ≤ gaveWay.state.operators.length + 2) := by
  have layered := layered_of_visits visits
  refine ⟨layered.noClosing, layered.stepped, ?_⟩
  intro eager
  rw [eager] at layered
  refine ⟨fun segment member => layered.eager_cases member, layered.length_le, ?_⟩
  intro incoming operands
  have short := layered.length_topSegment_le
  have few := Pending.length_giveWayFrom_eager incoming state.pending.operators operands
  exact ⟨few.1.trans short, few.2.trans (Nat.add_le_add_left short _)⟩

theorem segments_of_open_group :
    let state := ((fresh .standard).read "1+2*(3-4/5".toList).state
    (fresh .standard).Visits "1+2*(3-4/5".toList state ∧
      state.pending.operators =
        [.binary .divide, .binary .subtract, .openBracket, .binary .multiply, .binary .add] ∧
      state.pending.operators.length ≤
        3 * state.pending.operators.count .openBracket + 2 := by
  intro state
  have visits : (fresh .standard).Visits "1+2*(3-4/5".toList state := by
    right
    rw [Outcome.reached_eq_ok_iff]
    exact ⟨by decide +kernel, rfl⟩
  exact ⟨visits, by decide +kernel, ((segments_of_visits visits).2.2 rfl).2.1⟩

end Machine

end Reckon
