import FlowFacts.Proofs.Equations.Accumulation

/-!
# What the check of given facts accepts

The check visits the nodes one after the other and works on a copy of the facts, but a node that
passes leaves the copy as it was. So every node is judged by the facts as they were given
(`Equations.check_eq`), and only its own output, which is recomputed from the initial fact, is not
there to be collected when the node is a source of itself (`Equations.cleared`).
-/

namespace FlowFacts.Equations

variable {n : Nat} {F : Type} {E : Equations n F}

/-- The facts without the output of a node. -/
def cleared (E : Equations n F) (store : Store n F) (i : Fin n) : Store n F :=
  store.put i { store.get i with output := E.initial }

theorem get_cleared (store : Store n F) (i j : Fin n) :
    (E.cleared store i).get j =
      ⟨(store.get j).input, if i = j then E.initial else (store.get j).output⟩ := by
  rw [cleared, Store.get_put]
  split
  next h => rw [h]
  next => rfl

theorem put_cleared (store : Store n F) (i : Fin n) :
    (E.cleared store i).put i (store.get i) = store := by
  refine Vector.ext fun k hk => ?_
  change ((E.cleared store i).put i (store.get i)).get ⟨k, hk⟩ = store.get ⟨k, hk⟩
  rw [Store.get_put, get_cleared]
  by_cases h : i = ⟨k, hk⟩
  · rw [if_pos h, h]
  · rw [if_neg h, if_neg h]

theorem difference?_eq_none_iff [DecidableEq F] {expected found : Sides F} :
    difference? expected found = none ↔ found = expected := by
  obtain ⟨i, o⟩ := expected
  obtain ⟨i', o'⟩ := found
  unfold difference?
  split
  next h => simp_all
  next h => split <;> simp_all

/-- The node is a source of itself, and its own output is not among what it collects without it. -/
def FedByItself [LE F] (E : Equations n F) (store : Store n F) (i : Fin n) : Prop :=
  i ≠ E.boundary ∧ ∃ sources, E.sources i = .ok sources ∧ i ∈ sources ∧
    ¬ (store.get i).output ≤ E.meetOver (E.cleared store i) sources

variable [LE F] [DecidableLE F] [DecidableEq F]

/-- The objection to the facts of a node, if there is one: its visit, from the initial output, fails
a check or leaves other facts. -/
def objection? (E : Equations n F) (store : Store n F) (i : Fin n) : Option (Stop n) :=
  match E.visit (E.cleared store i) i with
  | .error e => some (.gap e)
  | .ok v =>
    match v.misstep? with
    | some what => some (.misstep i what)
    | none => (difference? (store.get i) v.left).map (.unstable i)

theorem objection?_eq_none_iff {store : Store n F} {i : Fin n} :
    E.objection? store i = none ↔
      ∃ v, E.visit (E.cleared store i) i = .ok v ∧ v.misstep? = none ∧ v.left = store.get i := by
  unfold objection?
  cases E.visit (E.cleared store i) i with
  | error e => simp
  | ok v => cases hm : v.misstep? <;> simp [hm, difference?_eq_none_iff]

omit [LE F] [DecidableLE F] [DecidableEq F] in
theorem visit_cleared {store : Store n F} {i : Fin n} {v : Visit n F} :
    E.visit (E.cleared store i) i = .ok v ↔
      v.node = i ∧ E.gather (E.cleared store i) i = .ok v.found.input ∧
        v.found.output = E.initial ∧ E.transfer i v.found = (v.left, v.report) := by
  rw [visit_eq_ok_iff, get_cleared, if_pos rfl]

/-- There is no objection where the transfer function makes the facts of the initial output and of
what is collected while the output is away. -/
theorem objection?_eq_none_iff_yields {store : Store n F} {i : Fin n} :
    E.objection? store i = none ↔
      ∃ x, E.gather (E.cleared store i) i = .ok x ∧
        Yields (E.transfer i) ⟨x, E.initial⟩ (store.get i) := by
  rw [objection?_eq_none_iff]
  constructor
  · rintro ⟨⟨_, ⟨x, _⟩, left, report⟩, hv, clean, hleft⟩
    obtain ⟨-, hgather, rfl, htransfer⟩ := visit_cleared.1 hv
    dsimp only at htransfer hleft
    have sound := Visit.misstep?_eq_none_iff.1 clean
    refine ⟨x, hgather, ?_⟩
    rw [← hleft]
    exact ⟨by rw [htransfer], sound.output_le, by rw [htransfer]; exact sound.report_iff⟩
  · rintro ⟨x, hgather, yields⟩
    refine ⟨⟨i, ⟨x, E.initial⟩, store.get i, (E.transfer i ⟨x, E.initial⟩).2⟩,
      visit_cleared.2 ⟨rfl, hgather, rfl, Prod.ext yields.left_eq rfl⟩, ?_, rfl⟩
    exact Visit.misstep?_eq_none_iff.2 ⟨yields.output_le, yields.report_iff⟩

theorem recompute_cons (i : Fin n) (rest : List (Fin n)) (p : Progress n F) :
    E.recompute (i :: rest) p =
      match E.advance true { p with store := E.cleared p.store i } i with
      | (next, .error stop) => (next, some stop)
      | (next, .ok v) =>
        match difference? (p.store.get i) v.left with
        | some role => (next, some (.unstable i role))
        | none => E.recompute rest next := rfl

/-- The nodes are judged in turn, each by the facts as they were given. -/
theorem recompute_eq_findSome? (order : List (Fin n)) (p : Progress n F) :
    (E.recompute order p).2 = order.findSome? (E.objection? p.store) := by
  induction order generalizing p with
  | nil => rfl
  | cons i rest ih =>
    rw [List.findSome?_cons, recompute_cons, advance]
    cases hv : E.visit (E.cleared p.store i) i with
    | error e => simp [objection?, hv]
    | ok v =>
      cases hm : v.misstep? with
      | some what => simp [objection?, hv, hm]
      | none =>
        cases hd : difference? (p.store.get i) v.left with
        | some role => simp [objection?, hv, hm, hd]
        | none =>
          simp only [objection?, hv, hm, hd, ih, if_true, Option.map_none]
          rw [difference?_eq_none_iff.1 hd, put_cleared]

/-- The verdict on given facts: first on what comes in at the boundary, then on each node. -/
theorem check_eq (store : Store n F) :
    (E.check store).2 =
      if (store.get E.boundary).input ≠ E.boundaryFact then some (.unstable E.boundary .input)
      else match E.order with
        | .error e => some (.gap e)
        | .ok order => order.findSome? (E.objection? store) := by
  unfold check
  split
  · rfl
  · cases E.order with
    | error e => rfl
    | ok order => exact recompute_eq_findSome? order _

/-- Facts are accepted if the boundary has what comes in from outside and there is no objection to
any node, in whatever order the nodes are judged. -/
theorem check_eq_none_iff {order : List (Fin n)} (ho : E.order = .ok order)
    (covers : ∀ i, i ∈ order) (store : Store n F) :
    (E.check store).2 = none ↔
      (store.get E.boundary).input = E.boundaryFact ∧ ∀ i, E.objection? store i = none := by
  rw [check_eq]
  split
  next h => simp [h]
  next h =>
    rw [not_not] at h
    simp [h, ho, covers, List.findSome?_eq_none_iff]

/-- The same equations, with the nodes in another order. -/
def inOrder (E : Equations n F) (order : List (Fin n)) : Equations n F :=
  { E with order := .ok order }

theorem check_inOrder_eq_none_iff {order order' : List (Fin n)} (ho : E.order = .ok order)
    (covers : ∀ i, i ∈ order) (covers' : ∀ i, i ∈ order') {store : Store n F} :
    ((E.inOrder order').check store).2 = none ↔ (E.check store).2 = none := by
  rw [check_eq_none_iff ho covers, check_eq_none_iff rfl covers']
  rfl

/-- Where transfer functions keep the contract, facts are refused only for what they are. -/
theorem Grows.unstable_of_check (grows : E.Grows)
    (visits : ∀ store i, ∃ v, E.visit store i = .ok v) {order : List (Fin n)}
    (ho : E.order = .ok order) {store : Store n F} {stop : Stop n}
    (h : (E.check store).2 = some stop) : ∃ i role, stop = .unstable i role := by
  rw [check_eq, ho] at h
  split at h
  · cases h
    exact ⟨_, _, rfl⟩
  · obtain ⟨i, -, hi⟩ := List.exists_of_findSome?_eq_some h
    obtain ⟨v, hv⟩ := visits (E.cleared store i) i
    simp only [objection?, hv, grows.misstep?_eq_none hv, Option.map_eq_some_iff] at hi
    obtain ⟨role, -, rfl⟩ := hi
    exact ⟨i, role, rfl⟩

end FlowFacts.Equations

/-! ### Solutions before the check -/

namespace FlowFacts.Equations.Accumulates

variable {n : Nat} {F : Type} {E : Equations n F} {f : Fin n → F → F} [SemilatticeSup F]
  [DecidableLE F] [DecidableEq F] {store : Store n F}

/-- An output that fits its input gives no objection of its own: it all depends on what the node
collects while its own output is away. -/
theorem objection?_eq (acc : E.Accumulates f) {i : Fin n} {x : F}
    (fits : (store.get i).output = f i (store.get i).input)
    (hgather : E.gather (E.cleared store i) i = .ok x) :
    E.objection? store i = if x = (store.get i).input then none else some (.unstable i .input) := by
  have hv : E.visit (E.cleared store i) i = .ok (E.visitWith (E.cleared store i) i x) := by
    rw [visit, hgather]
    rfl
  have hleft : (E.visitWith (E.cleared store i) i x).left = ⟨x, f i x⟩ := by
    have hbottom : ((E.cleared store i).get i).output = E.initial := by
      rw [get_cleared, if_pos rfl]
    rw [acc.left_of_visit hv, hbottom, sup_eq_right.2 (acc.initial_le _)]
    rfl
  unfold objection?
  rw [hv]
  simp only [acc.grows.misstep?_eq_none hv, hleft]
  split
  next hx =>
    rw [difference?_eq_none_iff.2, Option.map_none]
    rw [hx, ← fits]
  next hx => simp [difference?, hx]

theorem objection?_boundary (acc : E.Accumulates f) (solves : E.Solves f store.get) :
    E.objection? store E.boundary = none := by
  rw [acc.objection?_eq (solves.output _) (gather_boundary _), get_cleared, if_pos rfl]

omit [DecidableLE F] [DecidableEq F] in
/-- A solution has as its input what a node collects without its own output, unless the node is a
source of itself and its own output is more. -/
theorem meetOver_cleared_eq_iff (acc : E.Accumulates f) (solves : E.Solves f store.get) {i : Fin n}
    (hi : i ≠ E.boundary) {sources : List (Fin n)} (hs : E.sources i = .ok sources) :
    E.meetOver (E.cleared store i) sources = (store.get i).input ↔
      (i ∈ sources → (store.get i).output ≤ E.meetOver (E.cleared store i) sources) := by
  have hlub := solves.input i hi sources hs
  have others : ∀ j ∈ sources, i ≠ j →
      (store.get j).output ≤ E.meetOver (E.cleared store i) sources := by
    intro j hj hij
    have below : ((E.cleared store i).get j).output ≤ E.meetOver (E.cleared store i) sources :=
      acc.meetOver_le_iff.1 le_rfl j hj
    rwa [get_cleared, if_neg hij] at below
  refine ⟨fun same hmem => ?_, fun own => le_antisymm ?_ ?_⟩
  · exact same ▸ hlub.1 ⟨i, hmem, rfl⟩
  · rw [acc.meetOver_le_iff]
    intro j hj
    rw [get_cleared]
    split
    · exact acc.initial_le _
    · exact hlub.1 ⟨j, hj, rfl⟩
  · apply hlub.2
    rintro _ ⟨j, hj, rfl⟩
    by_cases hij : i = j
    · exact hij ▸ own (hij ▸ hj)
    · exact others j hj hij

/-- A solution is objected to at the nodes that are fed by themselves, and only there. -/
theorem objection?_of_solves (acc : E.Accumulates f) (solves : E.Solves f store.get) {i : Fin n}
    {sources : List (Fin n)} (hs : E.sources i = .ok sources) :
    E.objection? store i = none ∧ ¬ E.FedByItself store i ∨
      E.objection? store i = some (.unstable i .input) ∧ E.FedByItself store i := by
  by_cases hi : i = E.boundary
  · subst hi
    exact .inl ⟨acc.objection?_boundary solves, fun fed => fed.1 rfl⟩
  · have hgather : E.gather (E.cleared store i) i =
        .ok (E.meetOver (E.cleared store i) sources) := by
      rw [gather_of_ne hi, hs]
      rfl
    rw [acc.objection?_eq (solves.output i) hgather]
    split
    next same =>
      refine .inl ⟨rfl, ?_⟩
      rintro ⟨-, sources', hs', hmem, more⟩
      cases hs.symm.trans hs'
      exact more ((acc.meetOver_cleared_eq_iff solves hi hs).1 same hmem)
    next less =>
      rw [acc.meetOver_cleared_eq_iff solves hi hs, Classical.not_imp] at less
      exact .inr ⟨rfl, hi, sources, hs, less⟩

/-- The verdict on a solution: it is refused if there is a node that is fed by itself, for the input
of such a node, and else it is accepted. -/
theorem check_of_solves (acc : E.Accumulates f) (solves : E.Solves f store.get)
    (total : ∀ i, ∃ sources, E.sources i = .ok sources) {order : List (Fin n)}
    (ho : E.order = .ok order) (covers : ∀ i, i ∈ order) :
    ((E.check store).2 = none ↔ ∀ i, ¬ E.FedByItself store i) ∧
      ∀ stop, (E.check store).2 = some stop →
        ∃ i, E.FedByItself store i ∧ stop = .unstable i .input := by
  have objection : ∀ i, E.objection? store i = none ∧ ¬ E.FedByItself store i ∨
      E.objection? store i = some (.unstable i .input) ∧ E.FedByItself store i := by
    intro i
    obtain ⟨sources, hs⟩ := total i
    exact acc.objection?_of_solves solves hs
  have verdict : (E.check store).2 = order.findSome? (E.objection? store) := by
    rw [check_eq, if_neg (not_not.2 solves.boundary), ho]
  rw [verdict]
  constructor
  · rw [List.findSome?_eq_none_iff]
    refine ⟨fun quiet i fed => ?_, fun none i _ => ?_⟩
    · rcases objection i with ⟨-, clear⟩ | ⟨some, -⟩
      · exact clear fed
      · rw [quiet i (covers i)] at some
        cases some
    · exact ((objection i).resolve_right fun h => none i h.2).1
  · intro stop hstop
    obtain ⟨i, -, hi⟩ := List.exists_of_findSome?_eq_some hstop
    rcases objection i with ⟨none, -⟩ | ⟨some, fed⟩
    · rw [none] at hi
      cases hi
    · rw [some] at hi
      exact ⟨i, fed, (Option.some.inj hi).symm⟩

end FlowFacts.Equations.Accumulates
