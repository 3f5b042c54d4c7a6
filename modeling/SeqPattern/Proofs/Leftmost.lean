import SeqPattern.Meaning.Leftmost

namespace SeqPattern

variable {α : Type} {first : Nat → Option Nat} {size p : Nat}

theorem leftmost_of_lt (h : size < p) : leftmost first size p = [] := by
  rw [leftmost, if_pos h]

theorem leftmost_of_none (h : first p = none) :
    leftmost first size p = leftmost first size (p + 1) := by
  by_cases hp : size < p
  · rw [leftmost_of_lt hp, leftmost_of_lt (Nat.lt_succ_of_lt hp)]
  · rw [leftmost, if_neg hp, h]

theorem leftmost_of_some {q : Nat} (hp : p ≤ size) (h : first p = some q) :
    leftmost first size p = .span p q :: leftmost first size (p + max 1 (q - p)) := by
  rw [leftmost, if_neg (Nat.not_lt_of_le hp), h]

theorem first_of_mem_leftmost {m : Match} (h : m ∈ leftmost first size p) :
    p ≤ m.index ∧ m.index ≤ size ∧ (first m.index).map (Match.span m.index) = some m := by
  induction p using leftmost.induct first size with
  | case1 p hp =>
    rw [leftmost_of_lt hp] at h
    cases h
  | case2 p hp hnone ih =>
    rw [leftmost_of_none hnone] at h
    obtain ⟨hle, hsize, hm⟩ := ih h
    exact ⟨Nat.le_of_succ_le hle, hsize, hm⟩
  | case3 p hp q hsome ih =>
    rw [leftmost_of_some (Nat.le_of_not_lt hp) hsome] at h
    rcases List.mem_cons.mp h with rfl | h
    · exact ⟨Nat.le_refl p, Nat.le_of_not_lt hp, by simp [Match.span, hsome]⟩
    · obtain ⟨hle, hsize, hm⟩ := ih h
      exact ⟨by omega, hsize, hm⟩

theorem pairwise_leftmost :
    (leftmost first size p).Pairwise fun m n => m.index + max 1 m.length ≤ n.index := by
  induction p using leftmost.induct first size with
  | case1 p hp =>
    rw [leftmost_of_lt hp]
    exact .nil
  | case2 p hp hnone ih => rwa [leftmost_of_none hnone]
  | case3 p hp q hsome ih =>
    rw [leftmost_of_some (Nat.le_of_not_lt hp) hsome]
    exact .cons (fun m hm => (first_of_mem_leftmost hm).1) ih

theorem first_eq_none_of_passed_over {i : Nat} (hpi : p ≤ i) (hi : i ≤ size)
    (hgap : ∀ m ∈ leftmost first size p, i < m.index ∨ m.index + max 1 m.length ≤ i) :
    first i = none := by
  induction p using leftmost.induct first size with
  | case1 p hp => omega
  | case2 p hp hnone ih =>
    rw [leftmost_of_none hnone] at hgap
    rcases Nat.lt_or_eq_of_le hpi with hlt | rfl
    · exact ih hlt hgap
    · exact hnone
  | case3 p hp q hsome ih =>
    rw [leftmost_of_some (Nat.le_of_not_lt hp) hsome] at hgap
    have hpast := hgap (.span p q) List.mem_cons_self
    simp only [Match.span] at hpast
    exact ih (by omega) fun m hm => hgap m (List.mem_cons_of_mem _ hm)

theorem leftmost_eq_nil_iff :
    leftmost first size p = [] ↔ ∀ i, p ≤ i → i ≤ size → first i = none := by
  constructor
  · intro h i hpi hi
    exact first_eq_none_of_passed_over hpi hi (by simp [h])
  · intro h
    rw [List.eq_nil_iff_forall_not_mem]
    intro m hm
    obtain ⟨hle, hsize, hm⟩ := first_of_mem_leftmost hm
    rw [h m.index hle hsize] at hm
    cases hm

theorem flatMap_leftmost_sublist (as : List α) :
    ((leftmost first size p).flatMap fun m => (as.drop m.index).take m.length).Sublist
      (as.drop p) := by
  induction p using leftmost.induct first size with
  | case1 p hp =>
    rw [leftmost_of_lt hp]
    exact List.nil_sublist _
  | case2 p hp hnone ih =>
    rw [leftmost_of_none hnone]
    exact ih.trans (List.drop_sublist_drop_left as (Nat.le_succ p))
  | case3 p hp q hsome ih =>
    rw [leftmost_of_some (Nat.le_of_not_lt hp) hsome, List.flatMap_cons]
    have hsplit := List.take_append_drop (q - p) (as.drop p)
    have hrest : (as.drop (p + max 1 (q - p))).Sublist ((as.drop p).drop (q - p)) := by
      rw [List.drop_drop]
      exact List.drop_sublist_drop_left as (by omega)
    conv => rhs; rw [← hsplit]
    exact (List.Sublist.refl _).append (ih.trans hrest)

end SeqPattern
