import Mathlib.Data.List.Perm.Basic
import Mathlib.Data.List.TFAE
import Mathlib.Order.BooleanAlgebra.Basic
import Mathlib.Order.Bounds.Basic
import Mathlib.Tactic.TFAE
import FlowFacts.FactSet

/-!
# The lattice of sets of facts

Sets of facts are ordered by inclusion. The union of two sets is their join, the intersection their
meet, and the difference the complement of one in the other. An operation that only adds or only
removes elements has changed a set exactly if it changed the number of elements, which is what its
report goes by (`FactSet.resized_snd`). So the operations with their reports and the comparison of
two sets all tell of one order (`FactSet.operations_agree`).
-/

namespace FlowFacts.FactSet

variable {α : Type} [Ord α] [Std.TransOrd α] [Std.LawfulEqOrd α] {s t : FactSet α} {a : α}

instance : SemilatticeSup (FactSet α) where
  le s t := s ≤ t
  le_refl _ _ := id
  le_trans _ _ _ hst htu a ha := htu a (hst a ha)
  le_antisymm _ _ hst hts := Std.ExtTreeSet.ext_mem fun a => ⟨hst a, hts a⟩
  sup s t := s ∪ t
  le_sup_left _ _ _ ha := Std.ExtTreeSet.mem_union_iff.2 (.inl ha)
  le_sup_right _ _ _ ha := Std.ExtTreeSet.mem_union_iff.2 (.inr ha)
  sup_le _ _ _ hs ht a ha := (Std.ExtTreeSet.mem_union_iff.1 ha).elim (hs a) (ht a)

omit [Std.LawfulEqOrd α] in
theorem empty_le (s : FactSet α) : ∅ ≤ s := fun a ha => absurd ha (by simp)

instance : GeneralizedBooleanAlgebra (FactSet α) where
  inf s t := s ∩ t
  inf_le_left _ _ _ ha := (Std.ExtTreeSet.mem_inter_iff.1 ha).1
  inf_le_right _ _ _ ha := (Std.ExtTreeSet.mem_inter_iff.1 ha).2
  le_inf _ _ _ hs ht a ha := Std.ExtTreeSet.mem_inter_iff.2 ⟨hs a ha, ht a ha⟩
  le_sup_inf s t u a ha := by
    obtain ⟨ht, hu⟩ := Std.ExtTreeSet.mem_inter_iff.1 ha
    rcases Std.ExtTreeSet.mem_union_iff.1 ht with hs | ht
    · exact Std.ExtTreeSet.mem_union_iff.2 (.inl hs)
    · refine Std.ExtTreeSet.mem_union_iff.2
        ((Std.ExtTreeSet.mem_union_iff.1 hu).imp_right fun hu => ?_)
      exact Std.ExtTreeSet.mem_inter_iff.2 ⟨ht, hu⟩
  sdiff s t := s \ t
  bot := ∅
  sup_inf_sdiff s t := Std.ExtTreeSet.ext_mem fun a => by
    change a ∈ (s ∩ t) ∪ (s \ t) ↔ a ∈ s
    rw [Std.ExtTreeSet.mem_union_iff, Std.ExtTreeSet.mem_inter_iff, Std.ExtTreeSet.mem_diff_iff,
      ← and_or_left, and_iff_left (Decidable.em (a ∈ t))]
  inf_inf_sdiff s t := Std.ExtTreeSet.eq_empty_iff_forall_not_mem.2 fun a ha => by
    obtain ⟨both, only⟩ := Std.ExtTreeSet.mem_inter_iff.1 ha
    exact (Std.ExtTreeSet.mem_diff_iff.1 only).2 (Std.ExtTreeSet.mem_inter_iff.1 both).2

theorem mem_sup : a ∈ s ⊔ t ↔ a ∈ s ∨ a ∈ t := Std.ExtTreeSet.mem_union_iff

omit [Std.LawfulEqOrd α] in
theorem mem_foldl_union {β : Type} {f : β → FactSet α} {bs : List β} {start : FactSet α} :
    a ∈ bs.foldl (fun target b => target ∪ f b) start ↔ a ∈ start ∨ ∃ b ∈ bs, a ∈ f b := by
  induction bs generalizing start with
  | nil => simp
  | cons b rest ih =>
    rw [List.foldl_cons, ih, Std.ExtTreeSet.mem_union_iff, List.exists_mem_cons_iff, or_assoc]

theorem mem_ofList {as : List α} : a ∈ (Std.ExtTreeSet.ofList as : FactSet α) ↔ a ∈ as := by
  classical
  rw [Std.ExtTreeSet.mem_ofList, List.contains_iff_mem]

omit [Std.LawfulEqOrd α] in
theorem nodup_toList (s : FactSet α) : s.toList.Nodup := by
  refine s.distinct_toList.imp ?_
  rintro a _ apart rfl
  exact apart Std.ReflOrd.compare_self

theorem eq_of_le_of_size_eq (h : s ≤ t) (size : t.size = s.size) : t = s := by
  have subset : s.toList ⊆ t.toList := by
    intro a ha
    rw [Std.ExtTreeSet.mem_toList] at ha ⊢
    exact h a ha
  have perm : s.toList.Perm t.toList := by
    refine (List.subperm_of_subset (nodup_toList s) subset).perm_of_length_le ?_
    rw [Std.ExtTreeSet.length_toList, Std.ExtTreeSet.length_toList, size]
  refine Std.ExtTreeSet.ext_mem fun a => ?_
  rw [← Std.ExtTreeSet.mem_toList, ← Std.ExtTreeSet.mem_toList (t := s), perm.mem_iff]

theorem resized_snd (h : s ≤ t ∨ t ≤ s) : (s.resized t).2 = .ofBool (decide (t ≠ s)) := by
  have same : t.size = s.size ↔ t = s := by
    constructor
    · intro size
      rcases h with h | h
      · exact eq_of_le_of_size_eq h size
      · exact (eq_of_le_of_size_eq h size.symm).symm
    · rintro rfl
      rfl
  have differs : (t.size != s.size) = decide (t ≠ s) := by
    rw [Bool.eq_iff_iff, bne_iff_ne, decide_eq_true_iff]
    exact not_congr same
  exact congrArg Change.ofBool differs

theorem resized_changed_iff (h : s ≤ t ∨ t ≤ s) : (s.resized t).2 = .changed ↔ t ≠ s := by
  rw [resized_snd h, Change.ofBool_eq_changed_iff, decide_eq_true_iff]

theorem resized_unchanged_iff (h : s ≤ t ∨ t ≤ s) : (s.resized t).2 = .unchanged ↔ t = s := by
  rw [resized_snd h, Change.ofBool_eq_unchanged_iff, decide_eq_false_iff_not, not_not]

theorem assign_snd (s t : FactSet α) : (s.assign t).2 = .ofBool (decide (t ≠ s)) := by
  unfold assign
  split
  next same => rw [same, decide_eq_false (not_not_intro rfl)]; rfl
  next apart => rw [decide_eq_true (Ne.symm apart)]; rfl

theorem join_unchanged_iff : (t.join s).2 = .unchanged ↔ s ≤ t :=
  (resized_unchanged_iff (.inl le_sup_left)).trans sup_eq_left

theorem meet_unchanged_iff : (s.meet t).2 = .unchanged ↔ s ≤ t :=
  (resized_unchanged_iff (.inr inf_le_left)).trans inf_eq_left

/-- Inclusion is an order with the empty set at the bottom, in which joining two sets gives their
least upper bound and meeting them their greatest lower bound. All four ways to ask whether one set
is in another one have the same answer: to compare them, to join the one into the other or meet it
with the other and see whether that changes anything, and to subtract the other and see whether
anything is left. To meet a set with another one and to subtract the other from it takes it
apart. -/
theorem operations_agree (s t u : FactSet α) :
    (s ≤ s ∧ (s ≤ t → t ≤ u → s ≤ u) ∧ (s ≤ t → t ≤ s → s = t) ∧ ∅ ≤ s) ∧
    (IsLUB {s, t} (s.join t).1 ∧ IsGLB {s, t} (s.meet t).1) ∧
    ((s.join t).1 = (t.join s).1 ∧ ((s.join t).1.join u).1 = (s.join (t.join u).1).1 ∧
      (s.join s).1 = s ∧ (s.join (s.meet t).1).1 = s) ∧
    ((s.meet t).1 = (t.meet s).1 ∧ ((s.meet t).1.meet u).1 = (s.meet (t.meet u).1).1 ∧
      (s.meet s).1 = s ∧ (s.meet (s.join t).1).1 = s) ∧
    [s ≤ t, (t.join s).2 = .unchanged, (s.meet t).2 = .unchanged, (s.subtract t).1 = ∅].TFAE ∧
    (∀ a ∈ (s.meet t).1, a ∉ (s.subtract t).1) ∧ ((s.meet t).1.join (s.subtract t).1).1 = s := by
  refine ⟨⟨le_refl s, le_trans, le_antisymm, empty_le s⟩, ⟨isLUB_pair, isGLB_pair⟩,
    ⟨sup_comm s t, sup_assoc s t u, sup_idem s, sup_inf_self⟩,
    ⟨inf_comm s t, inf_assoc s t u, inf_idem s, inf_sup_self⟩, ?_, fun a both only => ?_,
    sup_inf_sdiff s t⟩
  · tfae_have 1 ↔ 2 := join_unchanged_iff.symm
    tfae_have 1 ↔ 3 := meet_unchanged_iff.symm
    tfae_have 1 ↔ 4 := sdiff_eq_bot_iff.symm
    tfae_finish
  · exact (Std.ExtTreeSet.mem_diff_iff.1 only).2 (Std.ExtTreeSet.mem_inter_iff.1 both).2

theorem operations_agree_overlapping :
    let s : FactSet Nat := .ofList [1, 2]
    let t : FactSet Nat := .ofList [3, 2]
    ¬ s ≤ t ∧ (t.join s).2 ≠ .unchanged ∧ (s.meet t).2 ≠ .unchanged ∧ (s.subtract t).1 ≠ ∅ ∧
      IsLUB {s, t} (.ofList [1, 2, 3]) ∧ IsGLB {s, t} (.ofList [2]) ∧ 2 ∉ (s.subtract t).1 := by
  intro s t
  obtain ⟨-, ⟨lub, glb⟩, -, -, same, apart, -⟩ := operations_agree s t ∅
  have differ : ¬ s ≤ t := by decide
  have union : (s.join t).1 = .ofList [1, 2, 3] := by decide
  have inter : (s.meet t).1 = .ofList [2] := by decide +kernel
  have two : 2 ∈ (s.meet t).1 := by decide +kernel
  exact ⟨differ, mt (same.out 0 1).2 differ, mt (same.out 0 2).2 differ, mt (same.out 0 3).2 differ,
    union ▸ lub, inter ▸ glb, apart 2 two⟩

end FlowFacts.FactSet
