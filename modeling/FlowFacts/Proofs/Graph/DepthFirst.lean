import Mathlib.Algebra.BigOperators.Ring.Finset
import Mathlib.Data.List.Nodup
import FlowFacts.Graph.DepthFirst
import FlowFacts.Proofs.Graph.Edges

/-!
# The discipline of the stack

In the states that a traversal comes through, only the node on top of the stack can be unmarked
(`DepthFirst.Disciplined`), so it is complete, or it fails at a child without an answer, or its
state changes in one of four ways (`DepthFirst.Move`, `DepthFirst.Disciplined.step_cases`). No node
is emitted twice, and what holds at the start and is kept by each move holds of every state that a
traversal comes through (`DepthFirst.ComesThrough.invariant`), whether its nodes are asked for one
by one or all at once. Each move uses up one unit of the work that is left
(`DepthFirst.Move.work_eq`). Within a finite set of nodes a traversal therefore comes to its end,
and a budget beyond its work changes nothing (`DepthFirst.Disciplined.exists_remaining`,
`DepthFirst.Disciplined.remaining_eq`).
-/

namespace FlowFacts

namespace DepthFirst

variable {ν : Type}

/-- The marked nodes of a stack, top first. -/
def marked (stack : List (Frame ν)) : List ν := (stack.filter Frame.reached).map Frame.node

@[simp] theorem marked_cons (v : ν) (pending : List ν) (reached : Bool) (below : List (Frame ν)) :
    marked (⟨v, pending, reached⟩ :: below) =
      if reached then v :: marked below else marked below := by
  cases reached <;> rfl

/-- What holds of a traversal that has emitted some nodes: these and the marked nodes on the stack
are the visited ones, all of them distinct, and a node that has only been found is new and on
top. -/
structure Disciplined (children : ν → Except LookupError (List ν)) (emitted : List ν)
    (t : DepthFirst ν) : Prop where
  nodup : (emitted ++ marked t.stack).Nodup
  mem_visited_iff : ∀ v, v ∈ t.visited ↔ v ∈ emitted ++ marked t.stack
  below : ∀ f ∈ t.stack.tail, f.reached = true
  found : ∀ f ∈ t.stack, f.reached = false → f.node ∉ t.visited ∧ children f.node = .ok f.pending

/-- A move of a disciplined traversal, with the node that it emits, if it does. -/
inductive Move (children : ν → Except LookupError (List ν)) :
    DepthFirst ν → Option ν → DepthFirst ν → Prop
  | mark {visited v pending below} : v ∉ visited → children v = .ok pending →
    Move children ⟨visited, ⟨v, pending, false⟩ :: below⟩ none
      ⟨v :: visited, ⟨v, pending, true⟩ :: below⟩
  | emit {visited v below} :
    Move children ⟨visited, ⟨v, [], true⟩ :: below⟩ (some v) ⟨visited, below⟩
  | skip {visited v child pending below} : child ∈ visited →
    Move children ⟨visited, ⟨v, child :: pending, true⟩ :: below⟩ none
      ⟨visited, ⟨v, pending, true⟩ :: below⟩
  | push {visited v child grandchildren pending below} : child ∉ visited →
    children child = .ok grandchildren →
    Move children ⟨visited, ⟨v, child :: pending, true⟩ :: below⟩ none
      ⟨visited, ⟨child, grandchildren, false⟩ :: ⟨v, pending, true⟩ :: below⟩

variable {children : ν → Except LookupError (List ν)} {emitted : List ν} {t next : DepthFirst ν}
  {e : Option ν}

theorem start_eq_ok_iff {root : ν} :
    start children root = .ok t ↔ ∃ pending, children root = .ok pending ∧
      t = ⟨[], [⟨root, pending, false⟩]⟩ := by
  unfold start discover
  cases children root <;> simp [Except.map, eq_comm]

theorem disciplined_start {root : ν} (h : start children root = .ok t) :
    Disciplined children [] t := by
  obtain ⟨pending, hpending, rfl⟩ := start_eq_ok_iff.1 h
  exact ⟨by simp [marked], by simp [marked], by simp, by simpa using hpending⟩

theorem Disciplined.move (h : Disciplined children emitted t) (hm : Move children t e next) :
    Disciplined children (emitted ++ e.toList) next := by
  cases hm with
  | @mark visited v pending below hv =>
    -- The node moves from the found ones to the visited and marked ones.
    have new : v ∉ emitted ++ marked below := mt (h.mem_visited_iff v).2 hv
    have hbelow : ∀ f ∈ below, f.reached = true := h.below
    refine ⟨?_, fun w => ?_, hbelow, fun f hf unmarked => ?_⟩
    · have perm : (emitted ++ v :: marked below).Perm (v :: (emitted ++ marked below)) :=
        List.perm_middle
      simpa using perm.nodup_iff.2 (List.nodup_cons.2 ⟨new, h.nodup⟩)
    · have old := h.mem_visited_iff w
      simp only [marked_cons, List.mem_append, List.mem_cons] at old ⊢
      simp [old, or_left_comm]
    · obtain rfl | hf := List.mem_cons.1 hf
      · cases unmarked
      · simp [hbelow f hf] at unmarked
  | @emit visited v below =>
    have hbelow : ∀ f ∈ below, f.reached = true := h.below
    refine ⟨by simpa using h.nodup, by simpa using h.mem_visited_iff, ?_, fun f hf unmarked => ?_⟩
    · exact fun f hf => hbelow f (List.mem_of_mem_tail hf)
    · simp [hbelow f hf] at unmarked
  | @skip visited v child pending below =>
    have hbelow : ∀ f ∈ below, f.reached = true := h.below
    refine ⟨by simpa using h.nodup, by simpa using h.mem_visited_iff, hbelow,
      fun f hf unmarked => ?_⟩
    obtain rfl | hf := List.mem_cons.1 hf
    · cases unmarked
    · simp [hbelow f hf] at unmarked
  | @push visited v child grandchildren pending below hchild hgrandchildren =>
    -- The frame that the child is put on is marked already, so only the child is merely found.
    have hbelow : ∀ f ∈ below, f.reached = true := h.below
    have marked_tail : ∀ f ∈ (⟨v, pending, true⟩ : Frame ν) :: below, f.reached = true :=
      List.forall_mem_cons.2 ⟨rfl, hbelow⟩
    refine ⟨by simpa using h.nodup, by simpa using h.mem_visited_iff, marked_tail,
      fun f hf unmarked => ?_⟩
    obtain rfl | hf := List.mem_cons.1 hf
    · exact ⟨hchild, hgrandchildren⟩
    · simp [marked_tail f hf] at unmarked

/-- A disciplined traversal is complete, or it fails at a child that waits, or it makes a move. -/
theorem Disciplined.step_cases [DecidableEq ν] (h : Disciplined children emitted t) :
    (t.stack = [] ∧ step children t = .ok .finished) ∨
    (∃ f ∈ t.stack, ∃ v ∈ f.pending, ∃ e, children v = .error e ∧ step children t = .error e) ∨
    ∃ e next, Move children t e next ∧ step children t = .ok (match e with
      | none => .moved next
      | some v => .emitted v next) := by
  obtain ⟨visited, stack⟩ := t
  match stack with
  | [] => exact .inl ⟨rfl, rfl⟩
  | ⟨v, pending, false⟩ :: below =>
    obtain ⟨new, hpending⟩ := h.found _ List.mem_cons_self rfl
    exact .inr (.inr ⟨none, _, .mark new hpending, if_neg new⟩)
  | ⟨v, [], true⟩ :: below => exact .inr (.inr ⟨some v, _, .emit, rfl⟩)
  | ⟨v, child :: pending, true⟩ :: below =>
    by_cases hchild : child ∈ visited
    · exact .inr (.inr ⟨none, _, .skip hchild, if_pos hchild⟩)
    · cases hg : children child with
      | error e =>
        refine .inr (.inl ⟨_, List.mem_cons_self, child, List.mem_cons_self, e, hg, ?_⟩)
        simp [step, hchild, discover, hg, Except.map]
      | ok grandchildren =>
        refine .inr (.inr ⟨none, _, .push hchild hg, ?_⟩)
        simp [step, hchild, discover, hg, Except.map]

/-- What a step of a disciplined traversal says about it: it is complete, or it has made a move. -/
theorem Disciplined.of_step [DecidableEq ν] {s : Step ν} (h : Disciplined children emitted t)
    (hstep : step children t = .ok s) :
    match s with
    | .finished => t.stack = []
    | .emitted v next => Move children t (some v) next
    | .moved next => Move children t none next := by
  obtain ⟨hstack, hs⟩ | ⟨f, -, v, -, e, -, hs⟩ | ⟨e, next, hm, hs⟩ := h.step_cases
  · cases hs.symm.trans hstep
    exact hstack
  · cases hs.symm.trans hstep
  · cases e with
    | none =>
      cases hs.symm.trans hstep
      exact hm
    | some v =>
      cases hs.symm.trans hstep
      exact hm

/-! ### The states of a traversal -/

/-- A traversal from a root comes through a state. By then it has handed out the nodes of the list,
in order. -/
inductive ComesThrough [DecidableEq ν] (children : ν → Except LookupError (List ν)) (root : ν) :
    List ν → DepthFirst ν → Prop
  | start {t : DepthFirst ν} : start children root = .ok t → ComesThrough children root [] t
  | moved {emitted : List ν} {t next : DepthFirst ν} : ComesThrough children root emitted t →
    step children t = .ok (.moved next) → ComesThrough children root emitted next
  | emitted {emitted : List ν} {t : DepthFirst ν} {v : ν} {next : DepthFirst ν} :
    ComesThrough children root emitted t → step children t = .ok (.emitted v next) →
    ComesThrough children root (emitted ++ [v]) next

namespace ComesThrough

variable [DecidableEq ν] {root : ν} (h : ComesThrough children root emitted t)
include h

theorem disciplined : Disciplined children emitted t := by
  induction h with
  | start hstart => exact disciplined_start hstart
  | moved _ hstep ih => simpa using ih.move (ih.of_step hstep)
  | emitted _ hstep ih => exact ih.move (ih.of_step hstep)

/-- What holds when a traversal starts and is kept by each move holds of every state that it comes
through. -/
theorem invariant {I : List ν → DepthFirst ν → Prop}
    (start : ∀ t, DepthFirst.start children root = .ok t → I [] t)
    (keep : ∀ {emitted t e next}, Disciplined children emitted t → I emitted t →
      Move children t e next → I (emitted ++ e.toList) next) : I emitted t := by
  induction h with
  | start hstart => exact start _ hstart
  | moved before hstep ih =>
    have kept := keep before.disciplined ih (before.disciplined.of_step hstep)
    rwa [Option.toList_none, List.append_nil] at kept
  | emitted before hstep ih => exact keep before.disciplined ih (before.disciplined.of_step hstep)

/-- Whoever asks for the next node lets the traversal go on until it hands out this node, if there
is one. -/
theorem of_next {budget : Nat} {answer : Option ν} {rest : DepthFirst ν}
    (hnext : DepthFirst.next children budget t = .ok (answer, rest)) :
    ComesThrough children root (emitted ++ answer.toList) rest := by
  induction budget generalizing t with
  | zero => cases hnext
  | succ budget ih =>
    rw [DepthFirst.next] at hnext
    split at hnext
    next => cases hnext
    next =>
      cases hnext
      rwa [Option.toList_none, List.append_nil]
    next v later hstep =>
      cases hnext
      exact h.emitted hstep
    next later hstep => exact ih (h.moved hstep) hnext

/-- When a traversal has listed all that was to come, its stack is empty. -/
theorem of_remaining {budget : Nat} {vs : List ν} (hvs : remaining children budget t = .ok vs) :
    ∃ last, ComesThrough children root (emitted ++ vs) last ∧ last.stack = [] := by
  induction budget generalizing emitted t vs with
  | zero => cases hvs
  | succ budget ih =>
    rw [remaining] at hvs
    split at hvs
    next => cases hvs
    next hstep =>
      cases hvs
      rw [List.append_nil]
      exact ⟨t, h, h.disciplined.of_step hstep⟩
    next v rest hstep =>
      obtain ⟨later, hlater, rfl⟩ := map_eq_ok_iff.1 hvs
      rw [List.append_cons]
      exact ih (h.emitted hstep) hlater
    next rest hstep => exact ih (h.moved hstep) hvs

end ComesThrough

/-! ### The bound -/

/-- All nodes on the stack and all children that wait there are in a set. -/
def Within (U : Finset ν) (t : DepthFirst ν) : Prop :=
  ∀ f ∈ t.stack, f.node ∈ U ∧ ∀ v ∈ f.pending, v ∈ U

/-- The moves that a traversal still needs: two for each node that it has not visited and one for
each of its children, and for each marked node on the stack one for each child that waits and one to
emit it. -/
def work [DecidableEq ν] (degree : ν → Nat) (U : Finset ν) (t : DepthFirst ν) : Nat :=
  ∑ v ∈ U with v ∉ t.visited, (degree v + 2) +
    ((t.stack.filter Frame.reached).map fun f => f.pending.length + 1).sum

theorem Within.move {U : Finset ν} (h : Within U t) (hm : Move children t e next)
    (closed : ∀ v ∈ U, ∀ vs, children v = .ok vs → ∀ w ∈ vs, w ∈ U) : Within U next := by
  cases hm with
  | mark => simpa [Within] using h
  | emit => exact fun f hf => h f (List.mem_cons_of_mem _ hf)
  | skip =>
    obtain ⟨⟨hv, hpending⟩, hbelow⟩ := List.forall_mem_cons.1 h
    exact List.forall_mem_cons.2 ⟨⟨hv, (List.forall_mem_cons.1 hpending).2⟩, hbelow⟩
  | push _ hg =>
    obtain ⟨⟨hv, hpending⟩, hbelow⟩ := List.forall_mem_cons.1 h
    obtain ⟨hchild, hpending⟩ := List.forall_mem_cons.1 hpending
    exact List.forall_mem_cons.2 ⟨⟨hchild, closed _ hchild _ hg⟩,
      List.forall_mem_cons.2 ⟨⟨hv, hpending⟩, hbelow⟩⟩

variable [DecidableEq ν]

theorem Move.work_eq {degree : ν → Nat} {U : Finset ν} (within : Within U t)
    (hdegree : ∀ v vs, children v = .ok vs → degree v = vs.length) (hm : Move children t e next) :
    work degree U t = work degree U next + 1 := by
  cases hm with
  | @mark visited v pending below hv hpending =>
    -- Of the `degree v + 2` moves that the node stands for, marking it is one; the others now
    -- stand for its frame.
    have hU : v ∈ ({w ∈ U | w ∉ visited} : Finset ν) :=
      Finset.mem_filter.2 ⟨(within _ List.mem_cons_self).1, hv⟩
    have rest :
        ({w ∈ U | w ∉ v :: visited} : Finset ν) = ({w ∈ U | w ∉ visited} : Finset ν).erase v := by
      ext w
      simp [and_left_comm]
    have hsum := Finset.add_sum_erase _ (fun w => degree w + 2) hU
    have hlength := hdegree v pending hpending
    simp only [work, rest, List.filter_cons_of_neg, List.filter_cons_of_pos, List.map_cons,
      List.sum_cons, Bool.false_eq_true, not_false_eq_true]
    omega
  | emit => simp [work]; omega
  | skip => simp [work]; omega
  | push => simp [work]; omega

/-- What a budget beyond the work that is left comes to, a larger one comes to as well. -/
theorem Disciplined.remaining_eq {degree : ν → Nat} {U : Finset ν}
    (hdegree : ∀ v vs, children v = .ok vs → degree v = vs.length)
    (closed : ∀ v ∈ U, ∀ vs, children v = .ok vs → ∀ w ∈ vs, w ∈ U) {budget more : Nat}
    (h : Disciplined children emitted t) (within : Within U t) (enough : work degree U t < budget)
    (larger : budget ≤ more) : remaining children more t = remaining children budget t := by
  induction budget generalizing emitted t more with
  | zero => omega
  | succ budget ih =>
    obtain ⟨more, rfl⟩ : ∃ more', more = more' + 1 := ⟨more - 1, by omega⟩
    obtain ⟨-, hstep⟩ | ⟨f, -, v, -, e, -, hstep⟩ | ⟨e, next, hm, hstep⟩ := h.step_cases
    · rw [remaining, remaining, hstep]
    · rw [remaining, remaining, hstep]
    · have hwork := hm.work_eq within hdegree
      have same := ih (h.move hm) (within.move hm closed) (by omega) (Nat.le_of_succ_le_succ larger)
      rw [remaining, remaining, hstep]
      cases e with
      | none => exact same
      | some v => exact congrArg (Except.map (v :: ·)) same

/-- Among nodes that all have answers, a budget beyond the work that is left is enough. -/
theorem Disciplined.exists_remaining {degree : ν → Nat} {U : Finset ν}
    (hdegree : ∀ v vs, children v = .ok vs → degree v = vs.length)
    (closed : ∀ v ∈ U, ∀ vs, children v = .ok vs → ∀ w ∈ vs, w ∈ U)
    (answers : ∀ v ∈ U, ∃ vs, children v = .ok vs) {budget : Nat}
    (h : Disciplined children emitted t) (within : Within U t) (enough : work degree U t < budget) :
    ∃ vs, remaining children budget t = .ok vs := by
  induction budget generalizing emitted t with
  | zero => omega
  | succ budget ih =>
    obtain ⟨-, hstep⟩ | ⟨f, hf, v, hv, e, he, -⟩ | ⟨e, next, hm, hstep⟩ := h.step_cases
    · exact ⟨[], by rw [remaining, hstep]⟩
    · obtain ⟨vs, hvs⟩ := answers v ((within f hf).2 v hv)
      cases hvs.symm.trans he
    · have hwork := hm.work_eq within hdegree
      obtain ⟨vs, hvs⟩ := ih (h.move hm) (within.move hm closed) (by omega)
      cases e with
      | none => exact ⟨vs, by rw [remaining, hstep]; exact hvs⟩
      | some v => exact ⟨v :: vs, by rw [remaining, hstep]; exact map_eq_ok_iff.2 ⟨vs, hvs, rfl⟩⟩

/-- A larger budget changes nothing about a list that is complete. -/
theorem remaining_mono {budget more : Nat} {vs : List ν} (h : remaining children budget t = .ok vs)
    (larger : budget ≤ more) : remaining children more t = .ok vs := by
  induction budget generalizing t more vs with
  | zero => cases h
  | succ budget ih =>
    obtain ⟨more, rfl⟩ : ∃ more', more = more' + 1 := ⟨more - 1, by omega⟩
    have larger := Nat.le_of_succ_le_succ larger
    rw [remaining] at h ⊢
    split at h
    next => cases h
    next => exact h
    next v rest _ =>
      obtain ⟨later, hlater, rfl⟩ := map_eq_ok_iff.1 h
      exact map_eq_ok_iff.2 ⟨later, ih hlater larger, rfl⟩
    next => exact ih h larger

end DepthFirst

namespace Graph

variable {ν : Type} {g : Graph ν}

theorem degree_eq {v : ν} {vs : List ν} (h : g.children v = .ok vs) : g.degree v = vs.length := by
  rw [degree, h]

theorem traversalBound_eq (g : Graph ν) (root : ν) :
    g.traversalBound root =
      ((root :: (g.nodes ++ g.outlying)).map fun v => g.degree v + 2).sum + 1 := by
  unfold traversalBound
  induction root :: (g.nodes ++ g.outlying) with
  | nil => rfl
  | cons v vs ih =>
    rw [List.foldr_cons, ih, List.map_cons, List.sum_cons]
    omega

end Graph

end FlowFacts
