import Mathlib.Algebra.Order.BigOperators.Group.Finset
import Mathlib.Data.Set.Finite.List
import FlowFacts.Proofs.Graph.Reachability

/-!
# Traversals that come to their end

A graph is explorable from a root if it has answers wherever a traversal can come, at finitely many
nodes (`Graph.Explorable`). Then there are nodes that the traversal lists, however many moves it is
given beyond what it needs (`Graph.Lists`, `Graph.Explorable.exists_lists`): those that can be
reached, each once, the root last. Whoever asks for them one by one gets them in this order, and
then no more (`Graph.handedOut`). The bound on the moves that the graph works out is enough if it
knows these nodes (`Graph.Covers`), as a well-formed graph does. A search for one node, which stops
there, has the answer that the whole list would give (`Graph.WellFormed.exists_reaches`), and so has
the search from the other end (`Graph.WellFormed.reaches_inverse`).
-/

namespace FlowFacts

namespace DepthFirst

variable {ν : Type} {children : ν → Except LookupError (List ν)} {root : ν} {emitted : List ν}
  {t : DepthFirst ν}

/-! ### The root -/

/-- The root is at the bottom of the stack, and when the stack is empty, it has been emitted
last. -/
def Rooted (root : ν) (emitted : List ν) (t : DepthFirst ν) : Prop :=
  (emitted ++ t.stack.map Frame.node).getLast? = some root

theorem rooted_start (h : start children root = .ok t) : Rooted root [] t := by
  obtain ⟨pending, -, rfl⟩ := start_eq_ok_iff.1 h
  rfl

theorem Rooted.move {next : DepthFirst ν} {e : Option ν} (h : Rooted root emitted t)
    (hm : Move children t e next) : Rooted root (emitted ++ e.toList) next := by
  unfold Rooted at h ⊢
  cases hm with
  | mark | emit | skip => simpa using h
  | push => simpa [List.getLast?_append] using h

/-! ### One by one -/

variable [DecidableEq ν]

/-- The next node is the first one that is still to come, and then the others are still to come. -/
theorem exists_next {budget : Nat} {vs : List ν} (h : remaining children budget t = .ok vs) :
    ∃ rest, next children budget t = .ok (vs.head?, rest) ∧
      remaining children budget rest = .ok vs.tail := by
  induction budget generalizing t vs with
  | zero => cases h
  | succ budget ih =>
    have complete := h
    rw [remaining] at h
    rw [next]
    split at h
    next => cases h
    next =>
      cases h
      exact ⟨t, rfl, complete⟩
    next v rest _ =>
      obtain ⟨later, hlater, rfl⟩ := map_eq_ok_iff.1 h
      exact ⟨rest, rfl, remaining_mono hlater (Nat.le_succ budget)⟩
    next rest _ =>
      obtain ⟨last, hnext, hlater⟩ := ih h
      exact ⟨last, hnext, remaining_mono hlater (Nat.le_succ budget)⟩

/-- Of a traversal that comes to its end, it can be told at once whether it comes to a node: whether
that node is among those it lists. -/
theorem comesTo_eq {budget : Nat} {vs : List ν} (h : remaining children budget t = .ok vs)
    (target : ν) : comesTo children target budget t = .ok (decide (target ∈ vs)) := by
  induction budget generalizing t vs with
  | zero => cases h
  | succ budget ih =>
    rw [remaining] at h
    rw [comesTo]
    split at h
    next => cases h
    next =>
      cases h
      rfl
    next v rest _ =>
      obtain ⟨later, hlater, rfl⟩ := map_eq_ok_iff.1 h
      split
      next same => rw [same, decide_eq_true List.mem_cons_self]
      next other => simp only [ih hlater, List.mem_cons, Ne.symm other, false_or]
    next => exact ih h

end DepthFirst

namespace Graph

variable {ν : Type} {g : Graph ν} {root : ν}

/-- The answers to so many requests for the next node of a list. -/
def handedOut (vs : List ν) (count : Nat) : List (Option ν) :=
  (vs.take count).map some ++ List.replicate (count - vs.length) none

@[simp] theorem handedOut_zero (vs : List ν) : handedOut vs 0 = [] := by
  simp [handedOut]

theorem handedOut_succ (vs : List ν) (count : Nat) :
    handedOut vs (count + 1) = vs.head? :: handedOut vs.tail count := by
  cases vs <;> simp [handedOut, List.replicate_succ]

theorem nexts_eq [DecidableEq ν] {children : ν → Except LookupError (List ν)} {budget : Nat}
    {vs : List ν}
    {t : DepthFirst ν} (h : DepthFirst.remaining children budget t = .ok vs) (count : Nat) :
    DepthFirst.nexts children budget count t = .ok (handedOut vs count) := by
  induction count generalizing t vs with
  | zero => rw [DepthFirst.nexts, handedOut_zero]
  | succ count ih =>
    obtain ⟨rest, hnext, hlater⟩ := DepthFirst.exists_next h
    rw [DepthFirst.nexts, hnext, handedOut_succ]
    exact map_eq_ok_iff.2 ⟨_, ih hlater, rfl⟩

/-! ### Explorable graphs -/

/-- The graph has an answer wherever a traversal from a root can come, and that is at finitely many
nodes. -/
structure Explorable (g : Graph ν) (root : ν) : Prop where
  finite : {v | g.Reachable root v}.Finite
  answers : ∀ v, g.Reachable root v → ∃ ws, g.children v = .ok ws

/-- The graph knows the nodes that a traversal from a root can come to. -/
def Covers (g : Graph ν) (root : ν) : Prop :=
  ∀ v, g.Reachable root v → v ∈ root :: (g.nodes ++ g.outlying)

theorem Covers.finite (covers : g.Covers root) : {v | g.Reachable root v}.Finite :=
  (root :: (g.nodes ++ g.outlying)).finite_toSet.subset covers

namespace WellFormed

theorem covers (wf : g.WellFormed) (hroot : root ∈ g.nodes) : g.Covers root := fun _ reachable =>
  List.mem_cons_of_mem _ (List.mem_append_left _ (wf.mem_of_reachable hroot reachable))

theorem explorable (wf : g.WellFormed) (hroot : root ∈ g.nodes) : g.Explorable root where
  finite := (wf.covers hroot).finite
  answers v reachable :=
    (wf.children v (wf.mem_of_reachable hroot reachable)).imp fun _ => And.left

end WellFormed

section

variable (finite : {v | g.Reachable root v}.Finite)

/-- A bound on the moves of a traversal from a root: two for each node that it can come to, and one
for each of the children of these. -/
noncomputable def movesWithin : Nat := ∑ v ∈ finite.toFinset, (g.degree v + 2)

theorem reachable_closed :
    ∀ v ∈ finite.toFinset, ∀ vs, g.children v = .ok vs → ∀ w ∈ vs, w ∈ finite.toFinset := by
  intro v hv vs hvs w hw
  rw [Set.Finite.mem_toFinset] at hv ⊢
  exact Reachable.snoc hv ⟨vs, hvs, hw⟩

variable [DecidableEq ν]

/-- At its start a traversal is among the nodes that can be reached, and has all of its work before
it. -/
theorem start_within {t : DepthFirst ν} (h : DepthFirst.start g.children root = .ok t) :
    DepthFirst.Within finite.toFinset t ∧
      DepthFirst.work g.degree finite.toFinset t = movesWithin finite := by
  obtain ⟨pending, hpending, rfl⟩ := DepthFirst.start_eq_ok_iff.1 h
  have hroot : root ∈ finite.toFinset := finite.mem_toFinset.2 (.refl root)
  refine ⟨?_, by simp [DepthFirst.work, movesWithin]⟩
  intro f hf
  obtain rfl := List.mem_singleton.1 hf
  exact ⟨hroot, reachable_closed finite root hroot pending hpending⟩

theorem Covers.toFinset_subset (covers : g.Covers root) :
    finite.toFinset ⊆ (root :: (g.nodes ++ g.outlying)).toFinset := fun v hv =>
  List.mem_toFinset.2 (covers v (finite.mem_toFinset.1 hv))

theorem Covers.movesWithin_lt (covers : g.Covers root) :
    movesWithin finite < g.traversalBound root := by
  have known := covers.toFinset_subset finite
  rw [traversalBound_eq, Nat.lt_succ_iff, Finset.sum_list_map_count, movesWithin]
  refine (Finset.sum_le_sum fun v hv => ?_).trans (Finset.sum_le_sum_of_subset known)
  exact Nat.le_mul_of_pos_left _ (List.count_pos_iff.2 (List.mem_toFinset.1 (known hv)))

end

variable [DecidableEq ν]

/-- The traversal from a root, with a number of moves allowed. -/
def postorderWithin (g : Graph ν) (budget : Nat) (root : ν) : Except LookupError (List ν) :=
  (DepthFirst.start g.children root).bind (DepthFirst.remaining g.children budget)

/-- The first answers of the traversal from a root, with a number of moves allowed for each. -/
def firstWithin (g : Graph ν) (budget : Nat) (root : ν) (count : Nat) :
    Except LookupError (List (Option ν)) :=
  (DepthFirst.start g.children root).bind (DepthFirst.nexts g.children budget count)

theorem postorderWithin_eq_ok_iff {budget : Nat} {vs : List ν} :
    g.postorderWithin budget root = .ok vs ↔
      ∃ t, DepthFirst.start g.children root = .ok t ∧
        DepthFirst.remaining g.children budget t = .ok vs := by
  unfold postorderWithin
  cases DepthFirst.start g.children root <;> simp [Except.bind]

theorem firstWithin_eq {budget : Nat} {vs : List ν} (h : g.postorderWithin budget root = .ok vs)
    (count : Nat) : g.firstWithin budget root count = .ok (handedOut vs count) := by
  obtain ⟨t, hstart, hvs⟩ := postorderWithin_eq_ok_iff.1 h
  rw [firstWithin, hstart]
  exact nexts_eq hvs count

theorem postorderWithin_eq (finite : {v | g.Reachable root v}.Finite) {budget more : Nat}
    (enough : movesWithin finite < budget) (larger : budget ≤ more) :
    g.postorderWithin more root = g.postorderWithin budget root := by
  unfold postorderWithin
  cases hstart : DepthFirst.start g.children root with
  | error e => rfl
  | ok t =>
    obtain ⟨within, hwork⟩ := start_within finite hstart
    exact (DepthFirst.disciplined_start hstart).remaining_eq (fun _ _ => degree_eq)
      (reachable_closed finite) within (hwork ▸ enough) larger

/-! ### The nodes that are listed -/

/-- The traversal from a root comes to its end, and these are the nodes that it lists. -/
def Lists (g : Graph ν) (root : ν) (vs : List ν) : Prop :=
  ∃ enough, ∀ budget, enough ≤ budget → g.postorderWithin budget root = .ok vs

theorem lists_of_postorderWithin {budget : Nat} {vs : List ν}
    (h : g.postorderWithin budget root = .ok vs) : g.Lists root vs := by
  obtain ⟨t, hstart, hvs⟩ := postorderWithin_eq_ok_iff.1 h
  refine ⟨budget, fun more larger => ?_⟩
  exact postorderWithin_eq_ok_iff.2 ⟨t, hstart, DepthFirst.remaining_mono hvs larger⟩

namespace Lists

variable {vs : List ν}

/-- What holds when a traversal starts and is kept by each move holds of the nodes that it lists. -/
theorem induction (h : g.Lists root vs) {I : List ν → DepthFirst ν → Prop}
    (start : ∀ t, DepthFirst.start g.children root = .ok t → I [] t)
    (keep : ∀ {emitted t e next}, DepthFirst.Disciplined g.children emitted t → I emitted t →
      DepthFirst.Move g.children t e next → I (emitted ++ e.toList) next) :
    ∃ last, last.stack = [] ∧ DepthFirst.Disciplined g.children vs last ∧ I vs last := by
  obtain ⟨enough, h⟩ := h
  obtain ⟨t, hstart, hvs⟩ := postorderWithin_eq_ok_iff.1 (h enough (Nat.le_refl _))
  obtain ⟨last, comes, done⟩ := (DepthFirst.ComesThrough.start hstart).of_remaining hvs
  exact ⟨last, done, comes.disciplined, comes.invariant start keep⟩

theorem mem_iff (h : g.Lists root vs) (v : ν) : v ∈ vs ↔ g.Reachable root v := by
  obtain ⟨last, done, disciplined, explored⟩ := h.induction (fun _ => DepthFirst.explored_start)
    fun _ explored hm => explored.move hm
  exact explored.mem_iff disciplined done v

theorem nodup_and_getLast? (h : g.Lists root vs) : vs.Nodup ∧ vs.getLast? = some root := by
  obtain ⟨last, done, disciplined, rooted⟩ := h.induction (fun _ => DepthFirst.rooted_start)
    fun _ rooted hm => rooted.move hm
  refine ⟨disciplined.nodup.of_append_left, ?_⟩
  simpa [DepthFirst.Rooted, done] using rooted

end Lists

theorem Explorable.exists_lists (h : g.Explorable root) :
    ∃ vs, g.Lists root vs ∧ (g.Covers root → g.postorder root = .ok vs) := by
  obtain ⟨pending, hpending⟩ := h.answers root (.refl root)
  have hstart := DepthFirst.start_eq_ok_iff.2 ⟨pending, hpending, rfl⟩
  obtain ⟨within, hwork⟩ := start_within h.finite hstart
  obtain ⟨vs, hvs⟩ := (DepthFirst.disciplined_start hstart).exists_remaining (fun _ _ => degree_eq)
    (reachable_closed h.finite) (fun v hv => h.answers v (h.finite.mem_toFinset.1 hv)) within
    (Nat.lt_succ_of_le (Nat.le_of_eq hwork))
  have hlist := postorderWithin_eq_ok_iff.2 ⟨_, hstart, hvs⟩
  refine ⟨vs, lists_of_postorderWithin hlist, fun covers => ?_⟩
  exact (postorderWithin_eq h.finite (Nat.lt_succ_self _) (covers.movesWithin_lt h.finite)).trans
    hlist

/-- However a graph is connected, if a root leads to finitely many nodes that all have answers, then
the traversal comes to its end, and has listed the nodes that can be reached, each of them once and
the root last. Asked for its next node, it hands these out one by one, and then no more, however
often it is asked. -/
theorem reachable_handed_out (h : g.Explorable root) :
    ∃ vs, vs.Nodup ∧ (∀ v, v ∈ vs ↔ g.Reachable root v) ∧ vs.getLast? = some root ∧
      (∃ enough, ∀ budget, enough ≤ budget → g.postorderWithin budget root = .ok vs ∧
        ∀ count, g.firstWithin budget root count = .ok (handedOut vs count)) ∧
      (g.Covers root → g.postorder root = .ok vs ∧
        ∀ count, g.firstInPostorder root count = .ok (handedOut vs count)) := by
  obtain ⟨vs, lists, known⟩ := h.exists_lists
  obtain ⟨nodup, last⟩ := lists.nodup_and_getLast?
  obtain ⟨enough, hvs⟩ := id lists
  refine ⟨vs, nodup, lists.mem_iff, last, ⟨enough, fun budget larger => ?_⟩, fun covers => ?_⟩
  · exact ⟨hvs budget larger, firstWithin_eq (hvs budget larger)⟩
  · have within : g.postorderWithin (g.traversalBound root) root = .ok vs := known covers
    exact ⟨known covers, firstWithin_eq within⟩

/-- A graph with a node for each number. From 0 one gets to a loop of 1 and 3, on several ways, and
to a dead end; one does not get to 5, from where the way has no end. -/
def unending : Graph Nat where
  nodes := [0, 1, 2, 3, 4]
  entry := .ok 0
  exit := .ok 4
  children
    | 0 => .ok [1, 2, 1]
    | 1 => .ok [1, 3]
    | 2 => .ok [3, 4]
    | 3 => .ok [1]
    | 4 => .ok []
    | v => .ok [v + 1]
  parents
    | 0 | 5 => .ok []
    | 1 => .ok [0, 0, 1, 3]
    | 2 => .ok [0]
    | 3 => .ok [1, 2]
    | 4 => .ok [2]
    | v => .ok [v - 1]

theorem covers_unending : unending.Covers 0 := fun _ reachable =>
  List.mem_cons_of_mem _ (List.mem_append_left _ (reachable.mem_of_closed (by decide) (by decide)))

theorem explorable_unending : unending.Explorable 0 where
  finite := covers_unending.finite
  answers v _ := by
    match v with
    | 0 | 1 | 2 | 3 | 4 | _ + 5 => exact ⟨_, rfl⟩

theorem handed_out_unending : unending.postorder 0 = .ok [3, 1, 4, 2, 0] ∧
    unending.firstInPostorder 0 7 = .ok [some 3, some 1, some 4, some 2, some 0, none, none] := by
  obtain ⟨vs, -, -, -, -, known⟩ := reachable_handed_out explorable_unending
  obtain ⟨hvs, hfirst⟩ := known covers_unending
  have order : unending.postorder 0 = .ok [3, 1, 4, 2, 0] := by decide +kernel
  cases hvs.symm.trans order
  exact ⟨order, hfirst 7⟩

/-! ### Well-formed graphs -/

/-- On a well-formed graph the traversal comes to its end within the bound that the graph works
out. -/
theorem WellFormed.exists_lists (wf : g.WellFormed) (hroot : root ∈ g.nodes) :
    ∃ vs, g.Lists root vs ∧ g.postorder root = .ok vs := by
  obtain ⟨vs, lists, hvs⟩ := (wf.explorable hroot).exists_lists
  exact ⟨vs, lists, hvs (wf.covers hroot)⟩

/-- Whether one node can be reached from another is always answered, and the answer is right. -/
theorem WellFormed.exists_reaches (wf : g.WellFormed) (hroot : root ∈ g.nodes) (target : ν) :
    ∃ answer, g.reaches root target = .ok answer ∧ (answer = true ↔ g.Reachable root target) := by
  obtain ⟨vs, lists, hvs⟩ := wf.exists_lists hroot
  obtain ⟨t, hstart, hremaining⟩ := postorderWithin_eq_ok_iff.1 hvs
  unfold reaches
  split
  next same => exact ⟨true, rfl, iff_of_true rfl (same ▸ .refl root)⟩
  next =>
    refine ⟨decide (target ∈ vs), ?_, by rw [decide_eq_true_iff, lists.mem_iff]⟩
    rw [hstart]
    exact DepthFirst.comesTo_eq hremaining target

theorem WellFormed.reaches_eq_true_iff (wf : g.WellFormed) (hroot : root ∈ g.nodes) {target : ν} :
    g.reaches root target = .ok true ↔ g.Reachable root target := by
  obtain ⟨answer, hanswer, hiff⟩ := wf.exists_reaches hroot target
  rw [hanswer, Except.ok.injEq, hiff]

/-- The search from the other end, with every edge turned round, has the same answer. -/
theorem WellFormed.reaches_inverse (wf : g.WellFormed) {u v : ν} (hu : u ∈ g.nodes)
    (hv : v ∈ g.nodes) : g.inverse.reaches v u = g.reaches u v := by
  obtain ⟨answer, hanswer, hiff⟩ := wf.exists_reaches hu v
  obtain ⟨back, hback, hback_iff⟩ := wf.inverse.exists_reaches hv u
  have same : back = true ↔ answer = true :=
    calc back = true
      _ ↔ g.inverse.Reachable v u := hback_iff
      _ ↔ g.Reachable u v := wf.reachable_inverse_iff hu hv
      _ ↔ answer = true := hiff.symm
  rw [hanswer, hback, Bool.eq_iff_iff.2 same]

end Graph

end FlowFacts
