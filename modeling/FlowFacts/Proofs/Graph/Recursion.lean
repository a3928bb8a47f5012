import FlowFacts.Proofs.Graph.Postorder

/-!
# Depth-first search by recursion

The search as it is told in a few words: to visit a node, mark it, visit each of its children that
is not marked when its turn comes, and emit it (`Search.visit`). The traversal with an explicit
stack does the same. While a node is on the stack, it performs a visit of that node and then goes on
with the frames below (`Search.performs_visit`), so it lists what the recursion emits, node by node,
and it fails where the recursion fails (`Graph.postorderWithin_eq_recursion`).
-/

namespace FlowFacts

/-- How far a search has come: the nodes that it has marked, and those that it has emitted, in
order. -/
structure Search (ν : Type) where
  marked : List ν
  emitted : List ν

namespace Search

variable {ν : Type} [DecidableEq ν]

/-- Go through a list of nodes, and visit each one that is not marked when its turn comes. -/
def visitEach (visit : ν → Search ν → Except LookupError (Search ν)) (vs : List ν) (s : Search ν) :
    Except LookupError (Search ν) :=
  vs.foldlM (fun s v => if v ∈ s.marked then .ok s else visit v s) s

/-- Mark a node, visit its children, emit it. The recursion may go so many nodes deep. -/
def visit (children : ν → Except LookupError (List ν)) :
    Nat → ν → Search ν → Except LookupError (Search ν)
  | 0, _, _ => .error .unlisted
  | depth + 1, v, s => do
    let vs ← children v
    let s ← visitEach (visit children depth) vs { s with marked := v :: s.marked }
    return { s with emitted := s.emitted ++ [v] }

section

variable {visit : ν → Search ν → Except LookupError (Search ν)} {s s' : Search ν} {v : ν}
  {vs : List ν}

theorem visitEach_cons_of_mem (hv : v ∈ s.marked) :
    visitEach visit (v :: vs) s = visitEach visit vs s := by
  rw [visitEach, List.foldlM_cons, if_pos hv]
  rfl

theorem visitEach_cons_of_notMem (hv : v ∉ s.marked) :
    visitEach visit (v :: vs) s = (visit v s).bind (visitEach visit vs) := by
  rw [visitEach, List.foldlM_cons, if_neg hv]
  rfl

theorem visitEach_grows (grows : ∀ v s s', visit v s = .ok s' → s.marked ⊆ s'.marked)
    (h : visitEach visit vs s = .ok s') : s.marked ⊆ s'.marked := by
  induction vs generalizing s with
  | nil =>
    cases h
    exact List.Subset.refl _
  | cons v vs ih =>
    by_cases hv : v ∈ s.marked
    · rw [visitEach_cons_of_mem hv] at h
      exact ih h
    · rw [visitEach_cons_of_notMem hv] at h
      obtain ⟨later, hlater, hrest⟩ := bind_eq_ok_iff.1 h
      exact List.Subset.trans (grows v s later hlater) (ih hrest)

end

variable {children : ν → Except LookupError (List ν)} {s s' : Search ν} {v w : ν} {vs ws : List ν}
  {depth : Nat}

theorem visit_succ (hvs : children v = .ok vs) : visit children (depth + 1) v s =
    (visitEach (visit children depth) vs ⟨v :: s.marked, s.emitted⟩).bind fun s =>
      .ok ⟨s.marked, s.emitted ++ [v]⟩ := by
  rw [visit, hvs]
  rfl

theorem visit_eq_error {e : LookupError} (he : children v = .error e) :
    visit children (depth + 1) v s = .error e := by
  rw [visit, he]
  rfl

/-- What has been marked remains so. -/
theorem visit_grows (h : visit children depth v s = .ok s') : s.marked ⊆ s'.marked := by
  induction depth generalizing v s s' with
  | zero => cases h
  | succ depth ih =>
    cases hvs : children v with
    | error e =>
      rw [visit_eq_error hvs] at h
      cases h
    | ok vs =>
      rw [visit_succ hvs] at h
      obtain ⟨later, hlater, hlast⟩ := bind_eq_ok_iff.1 h
      cases hlast
      exact List.Subset.trans (List.subset_cons_self v s.marked)
        (visitEach_grows (fun _ _ _ => ih) hlater)

/-! ### The traversal as a search -/

/-- All that will have been emitted when a traversal goes on from where a search has come to, with a
stack. -/
def resume (children : ν → Except LookupError (List ν)) (budget : Nat) (s : Search ν)
    (stack : List (Frame ν)) : Except LookupError (List ν) :=
  (DepthFirst.remaining children budget ⟨s.marked, stack⟩).map (s.emitted ++ ·)

/-- On its way from one stack to another one, a traversal does what takes a search to an outcome. -/
def Performs (children : ν → Except LookupError (List ν)) (s : Search ν) (stack : List (Frame ν))
    (outcome : Except LookupError (Search ν)) (rest : List (Frame ν)) : Prop :=
  ∃ moves, ∀ budget, resume children (moves + budget) s stack =
    outcome.bind fun s' => resume children budget s' rest

namespace Performs

variable {stack between rest below : List (Frame ν)}

theorem refl (s : Search ν) (stack : List (Frame ν)) : Performs children s stack (.ok s) stack :=
  ⟨0, fun budget => by rw [Nat.zero_add]; rfl⟩

theorem trans {first : Except LookupError (Search ν)}
    {second : Search ν → Except LookupError (Search ν)}
    (h : Performs children s stack first between)
    (later : ∀ s', first = .ok s' → Performs children s' between (second s') rest) :
    Performs children s stack (first.bind second) rest := by
  obtain ⟨moves, h⟩ := h
  cases first with
  | error e => exact ⟨moves, h⟩
  | ok s' =>
    obtain ⟨more, hmore⟩ := later s' rfl
    exact ⟨moves + more, fun budget => by rw [Nat.add_assoc, h]; exact hmore budget⟩

/-- One move, and the way from there. -/
theorem move {s' : Search ν} {outcome : Except LookupError (Search ν)}
    (hm : ∀ budget, resume children (budget + 1) s stack = resume children budget s' between)
    (h : Performs children s' between outcome rest) : Performs children s stack outcome rest := by
  obtain ⟨moves, h⟩ := h
  exact ⟨moves + 1, fun budget => by rw [Nat.add_right_comm, hm, h]⟩

end Performs

section

variable (budget : Nat) (below : List (Frame ν))

theorem resume_nil : resume children (budget + 1) s [] = .ok s.emitted :=
  congrArg Except.ok (List.append_nil s.emitted)

theorem resume_mark (hv : v ∉ s.marked) : resume children (budget + 1) s (⟨v, vs, false⟩ :: below) =
    resume children budget ⟨v :: s.marked, s.emitted⟩ (⟨v, vs, true⟩ :: below) := by
  simp [resume, DepthFirst.remaining, DepthFirst.step, hv]

theorem resume_emit : resume children (budget + 1) s (⟨v, [], true⟩ :: below) =
    resume children budget ⟨s.marked, s.emitted ++ [v]⟩ below := by
  simp only [resume, DepthFirst.remaining, DepthFirst.step]
  cases DepthFirst.remaining children budget ⟨s.marked, below⟩ <;> simp [Except.map]

theorem resume_skip (hw : w ∈ s.marked) :
    resume children (budget + 1) s (⟨v, w :: vs, true⟩ :: below) =
    resume children budget s (⟨v, vs, true⟩ :: below) := by
  simp [resume, DepthFirst.remaining, DepthFirst.step, hw]

theorem resume_push (hw : w ∉ s.marked) :
    resume children (budget + 1) s (⟨v, w :: vs, true⟩ :: below) =
    (children w).bind fun ws =>
      resume children budget s (⟨w, ws, false⟩ :: ⟨v, vs, true⟩ :: below) := by
  cases hws : children w <;>
    simp [resume, DepthFirst.remaining, DepthFirst.step, DepthFirst.discover, hw, hws, Except.map,
      Except.bind]

end

/-- The nodes of a set that a search has not marked. -/
def unmarked (U : Finset ν) (s : Search ν) : Finset ν := {v ∈ U | v ∉ s.marked}

theorem unmarked_mono (U : Finset ν) (grows : s.marked ⊆ s'.marked) :
    unmarked U s' ⊆ unmarked U s :=
  Finset.monotone_filter_right U fun _ _ hv => mt (@grows _) hv

theorem card_unmarked_lt {U : Finset ν} (hU : v ∈ U) (hv : v ∉ s.marked) :
    (unmarked U ⟨v :: s.marked, s.emitted⟩).card < (unmarked U s).card := by
  refine Finset.card_lt_card (Finset.ssubset_iff_of_subset ?_ |>.2 ⟨v, ?_, ?_⟩)
  · exact unmarked_mono U (List.subset_cons_self v s.marked)
  · exact Finset.mem_filter.2 ⟨hU, hv⟩
  · simp [unmarked]

section

variable {U : Finset ν}

/-- With the children of a node that wait on the stack, a traversal does what visiting them one by
one does. -/
theorem performs_visitEach
    (performs : ∀ {s v vs} below, v ∈ U → v ∉ s.marked → children v = .ok vs →
      (unmarked U s).card ≤ depth →
      Performs children s (⟨v, vs, false⟩ :: below) (visit children depth v s) below)
    (below : List (Frame ν)) (within : ∀ w ∈ ws, w ∈ U) (deep : (unmarked U s).card ≤ depth) :
    Performs children s (⟨v, ws, true⟩ :: below) (visitEach (visit children depth) ws s)
      (⟨v, [], true⟩ :: below) := by
  induction ws generalizing s with
  | nil => exact .refl s _
  | cons w ws ih =>
    obtain ⟨hU, within⟩ := List.forall_mem_cons.1 within
    by_cases hw : w ∈ s.marked
    · rw [visitEach_cons_of_mem hw]
      exact .move (fun budget => resume_skip budget below hw) (ih within deep)
    · rw [visitEach_cons_of_notMem hw]
      cases hvs : children w with
      | error e =>
        -- The recursion is not at its end, for there is a node left that is not marked.
        have left : 0 < (unmarked U s).card := Finset.card_pos.2 ⟨w, Finset.mem_filter.2 ⟨hU, hw⟩⟩
        obtain ⟨depth, rfl⟩ : ∃ d, depth = d + 1 := ⟨depth - 1, by omega⟩
        refine ⟨1, fun budget => ?_⟩
        rw [Nat.add_comm, resume_push budget below hw, hvs, visit_eq_error hvs]
        rfl
      | ok vs =>
        have pushed : ∀ budget, resume children (budget + 1) s (⟨v, w :: ws, true⟩ :: below) =
            resume children budget s (⟨w, vs, false⟩ :: ⟨v, ws, true⟩ :: below) := fun budget => by
          rw [resume_push budget below hw, hvs]
          rfl
        refine .move pushed ((performs _ hU hw hvs deep).trans fun s' hs' => ?_)
        have fewer := Finset.card_le_card (unmarked_mono U (visit_grows hs'))
        exact ih within (fewer.trans deep)

/-- With a node that has been found on top of the stack, a traversal does what a visit of that node
does. -/
theorem performs_visit (closed : ∀ v ∈ U, ∀ vs, children v = .ok vs → ∀ w ∈ vs, w ∈ U)
    (below : List (Frame ν)) (hU : v ∈ U) (hv : v ∉ s.marked) (hvs : children v = .ok vs)
    (deep : (unmarked U s).card ≤ depth) :
    Performs children s (⟨v, vs, false⟩ :: below) (visit children depth v s) below := by
  induction depth generalizing s v vs below with
  | zero =>
    have left : 0 < (unmarked U s).card := Finset.card_pos.2 ⟨v, Finset.mem_filter.2 ⟨hU, hv⟩⟩
    omega
  | succ depth ih =>
    have fewer := card_unmarked_lt hU hv
    rw [visit_succ hvs]
    refine .move (fun budget => resume_mark budget below hv) (.trans
      (performs_visitEach (fun below hU hv hvs deep => ih below hU hv hvs deep) below
        (closed v hU vs hvs) (by omega)) fun s' _ => ?_)
    exact .move (fun budget => resume_emit budget below) (.refl _ _)

end

end Search

namespace Graph

variable {ν : Type} [DecidableEq ν] {g : Graph ν} {root : ν} {depth : Nat}

/-- What depth-first search from a root emits, by recursion that may go so many nodes deep. -/
def recursivePostorder (g : Graph ν) (depth : Nat) (root : ν) : Except LookupError (List ν) :=
  (Search.visit g.children depth root ⟨[], []⟩).map Search.emitted

section

variable (finite : {v | g.Reachable root v}.Finite)

theorem Covers.card_le (covers : g.Covers root) :
    finite.toFinset.card ≤ g.size + g.outlying.length + 1 :=
  calc finite.toFinset.card
    _ ≤ (root :: (g.nodes ++ g.outlying)).toFinset.card :=
      Finset.card_le_card (covers.toFinset_subset finite)
    _ ≤ (root :: (g.nodes ++ g.outlying)).length := List.toFinset_card_le _
    _ = g.size + g.outlying.length + 1 := by rw [List.length_cons, List.length_append, size]

/-- With moves enough for the stack, and depth enough for the recursion, these two come to the
same. -/
theorem postorderWithin_eq_recursion (deep : finite.toFinset.card ≤ depth) {budget : Nat}
    (enough : movesWithin finite < budget) :
    g.postorderWithin budget root = g.recursivePostorder depth root := by
  have hroot : root ∈ finite.toFinset := finite.mem_toFinset.2 (.refl root)
  have few : (Search.unmarked finite.toFinset ⟨[], []⟩).card ≤ depth :=
    (Finset.card_filter_le _ _).trans deep
  cases hvs : g.children root with
  | error e =>
    obtain ⟨depth, rfl⟩ : ∃ d, depth = d + 1 :=
      Nat.exists_eq_add_one_of_ne_zero
        (Nat.ne_of_gt ((Finset.card_pos.2 ⟨root, hroot⟩).trans_le deep))
    rw [postorderWithin, recursivePostorder, Search.visit_eq_error hvs, DepthFirst.start,
      DepthFirst.discover, hvs]
    rfl
  | ok vs =>
    have hstart := DepthFirst.start_eq_ok_iff.2 ⟨vs, hvs, rfl⟩
    obtain ⟨moves, performs⟩ := Search.performs_visit (reachable_closed finite) [] hroot
      (s := ⟨[], []⟩) List.not_mem_nil hvs few
    obtain ⟨left, rfl⟩ : ∃ n, budget = n + 1 :=
      Nat.exists_eq_add_one_of_ne_zero (Nat.ne_zero_of_lt enough)
    calc g.postorderWithin (left + 1) root
      _ = g.postorderWithin (moves + (left + 1)) root :=
        (postorderWithin_eq finite enough (Nat.le_add_left _ _)).symm
      _ = Search.resume g.children (moves + (left + 1)) ⟨[], []⟩ [⟨root, vs, false⟩] := by
        rw [postorderWithin, hstart, Search.resume]
        exact (congrFun Except.map_id _).symm
      _ = g.recursivePostorder depth root := by
        simp only [performs, Search.resume_nil, recursivePostorder]
        cases Search.visit g.children depth root ⟨[], []⟩ <;> rfl

end

/-- Where finitely many nodes can be reached, the traversal with a stack is depth-first search by
recursion: it lists what the recursion emits, in the same order, or it fails as the recursion does,
however deep that may go beyond the number of these nodes. Asked for its next node again and again,
it hands out just this list from the start. If all of these nodes have answers, there is such a
list. -/
theorem postorder_eq_recursion (finite : {v | g.Reachable root v}.Finite)
    (deep : finite.toFinset.card ≤ depth) :
    (∃ enough, ∀ budget, enough ≤ budget →
      g.postorderWithin budget root = g.recursivePostorder depth root ∧
      ∀ vs, g.recursivePostorder depth root = .ok vs →
        ∀ count, g.firstWithin budget root count = .ok (handedOut vs count)) ∧
      (g.Covers root → g.postorder root = g.recursivePostorder depth root ∧
        ∀ vs, g.recursivePostorder depth root = .ok vs →
          ∀ count, g.firstInPostorder root count = .ok (handedOut vs count)) ∧
      ((∀ v, g.Reachable root v → ∃ ws, g.children v = .ok ws) →
        ∃ vs, g.recursivePostorder depth root = .ok vs) := by
  have same : ∀ budget, movesWithin finite < budget →
      g.postorderWithin budget root = g.recursivePostorder depth root ∧
        ∀ vs, g.recursivePostorder depth root = .ok vs →
          ∀ count, g.firstWithin budget root count = .ok (handedOut vs count) := by
    intro budget enough
    have heq := postorderWithin_eq_recursion finite deep enough
    exact ⟨heq, fun vs hvs => firstWithin_eq (heq.trans hvs)⟩
  refine ⟨⟨_, same⟩, fun covers => same _ (covers.movesWithin_lt finite), fun answers => ?_⟩
  obtain ⟨vs, ⟨enough, lists⟩, -⟩ := Explorable.exists_lists ⟨finite, answers⟩
  have larger : movesWithin finite < max enough (movesWithin finite + 1) := by omega
  exact ⟨vs, (same _ larger).1.symm.trans (lists _ (Nat.le_max_left _ _))⟩

theorem recursion_unending : unending.postorder 0 = unending.recursivePostorder 6 0 ∧
    unending.firstInPostorder 0 3 = .ok [some 3, some 1, some 4] := by
  obtain ⟨-, known, -⟩ := postorder_eq_recursion covers_unending.finite (covers_unending.card_le _)
  obtain ⟨same, handed⟩ := known covers_unending
  have emitted : unending.recursivePostorder 6 0 = .ok [3, 1, 4, 2, 0] := by decide +kernel
  exact ⟨same, handed _ emitted 3⟩

end Graph

end FlowFacts
