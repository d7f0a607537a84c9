import Mathlib.Data.List.Induction
import Mathlib.Data.List.Nodup

/-!
# Lists without their repetitions

What is left of a list when each item is kept where it is first mentioned: the items are the same,
none stands twice, and they stand in the order in which they came first.
-/

namespace Telemetry

theorem nodup_eraseDups {α : Type} [BEq α] [LawfulBEq α] (l : List α) : l.eraseDups.Nodup := by
  match l with
  | [] => simp
  | a :: as =>
    have hlt := Nat.lt_succ_of_le (List.length_filter_le (fun b => !b == a) as)
    rw [List.eraseDups_cons]
    refine List.nodup_cons.2 ⟨by simp, ?_⟩
    exact nodup_eraseDups (as.filter fun b => !b == a)
termination_by l.length

/-- One item more changes what is left of a list without repetitions if it is a new one. -/
theorem eraseDups_concat {α : Type} [BEq α] [LawfulBEq α] (l : List α) (a : α) :
    (l ++ [a]).eraseDups = if a ∈ l then l.eraseDups else l.eraseDups ++ [a] := by
  rw [List.eraseDups_append]
  by_cases h : a ∈ l <;> simp [List.removeAll, List.eraseDups_cons, h]

theorem eraseDups_of_nodup {α : Type} [BEq α] [LawfulBEq α] {l : List α} (h : l.Nodup) :
    l.eraseDups = l := by
  induction l using List.reverseRecOn with
  | nil => rfl
  | append_singleton l a ih =>
    obtain ⟨hl, -, hnew⟩ := List.nodup_append.1 h
    have ha : a ∉ l := fun hmem => hnew a hmem a (List.mem_singleton_self a) rfl
    rw [eraseDups_concat, if_neg ha, ih hl]

/-- The items of a list without the repetitions, in the order in which each comes first. -/
structure FirstMentions (l l' : List String) : Prop where
  mem_iff : ∀ a, a ∈ l' ↔ a ∈ l
  in_order : l'.Pairwise fun a b => l.idxOf a < l.idxOf b

theorem FirstMentions.eraseDups (l : List String) : FirstMentions l l.eraseDups := by
  refine ⟨fun a => List.mem_eraseDups, ?_⟩
  induction l using List.reverseRecOn with
  | nil => exact .nil
  | append_singleton l a ih =>
    have hkept : l.eraseDups.Pairwise fun b c => (l ++ [a]).idxOf b < (l ++ [a]).idxOf c := by
      refine ih.imp_of_mem fun hb hc hlt => ?_
      rwa [List.idxOf_append_of_mem (List.mem_eraseDups.1 hb),
        List.idxOf_append_of_mem (List.mem_eraseDups.1 hc)]
    rw [eraseDups_concat]
    split
    · exact hkept
    rename_i hnew
    refine List.pairwise_append.2 ⟨hkept, List.pairwise_singleton _ _, fun b hb c hc => ?_⟩
    obtain rfl := List.mem_singleton.1 hc
    rw [List.idxOf_append_of_mem (List.mem_eraseDups.1 hb), List.idxOf_append_of_notMem hnew]
    exact Nat.lt_add_right _ (List.idxOf_lt_length_of_mem (List.mem_eraseDups.1 hb))

end Telemetry
