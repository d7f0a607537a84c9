import Telemetry.Proofs.Points.Prompt

/-!
# Counts in 64 bits and counts without bounds

What a stage computes with counts of 64 bits is what it would compute with integers, up to the
request on which a count overflows. There the run is abandoned. A prompt stage behind it either has
read enough by then, or it hands on that the run was abandoned, so that the whole chain agrees with
one that counts without bounds.
-/

namespace Telemetry

namespace Feed

variable {α β : Type} {C : Abandonment → Prop} {feed ideal : Feed α} {row : Row α}

/-- A count has overflowed among the items. -/
def Overflows (feed : Feed α) : Prop :=
  .error (.abandoned .overflow) ∈ feed

theorem Overflows.of_take {k : Nat} (h : Overflows (feed.take k)) : feed.Overflows :=
  List.mem_of_mem_take h

/-- Where all rows can be collected, no count has overflowed. -/
theorem not_overflows_of_collect (h : feed.collect.toOption.isSome = true) :
    ¬ feed.Overflows := by
  induction feed with
  | nil => exact List.not_mem_nil
  | cons item rest ih =>
    cases item with
    | error e => cases h
    | ok row =>
      rw [collect] at h
      have hrest : (collect rest).toOption.isSome = true := by
        cases hcollect : collect rest with
        | error e =>
          rw [hcollect] at h
          cases h
        | ok rows => rfl
      intro hmem
      rcases List.mem_cons.1 hmem with heq | hrest'
      · cases heq
      · exact ih hrest hrest'

/-- The feed is the ideal one, or it begins like it until a count overflows. -/
def Agrees (feed ideal : Feed α) : Prop :=
  feed = ideal ∨ ∃ out later rest,
    feed = ofRows out ++ .error (.abandoned .overflow) :: later ∧ ideal = ofRows out ++ rest

namespace Agrees

@[refl] theorem refl (feed : Feed α) : feed.Agrees feed := .inl rfl

/-- A count overflows at once. -/
theorem of_overflow (later ideal : Feed α) :
    Agrees (.error (.abandoned .overflow) :: later) ideal :=
  .inr ⟨[], later, ideal, rfl, rfl⟩

theorem cons (row : Row α) (h : feed.Agrees ideal) : Agrees (.ok row :: feed) (.ok row :: ideal) :=
  h.imp (congrArg _) fun ⟨out, later, rest, hfeed, hideal⟩ =>
    ⟨row :: out, later, rest, congrArg _ hfeed, congrArg _ hideal⟩

theorem trans {mid : Feed α} (h : feed.Agrees mid) (h' : mid.Agrees ideal) :
    feed.Agrees ideal := by
  rcases h with rfl | ⟨out, later, rest, rfl, rfl⟩
  · exact h'
  rcases h' with rfl | ⟨out', later', rest', hmid, rfl⟩
  · exact .inr ⟨out, later, rest, rfl, rfl⟩
  obtain ⟨more, rfl⟩ := exists_append_of_failing hmid.symm
  exact .inr ⟨out, later, ofRows more ++ rest', rfl, by rw [ofRows_append, List.append_assoc]⟩

/-- A count has overflowed among the first items, or they are the ideal ones. -/
theorem take (h : feed.Agrees ideal) (k : Nat) :
    Overflows (feed.take k) ∨ feed.take k = ideal.take k := by
  rcases h with rfl | ⟨out, later, rest, rfl, rfl⟩
  · exact .inr rfl
  by_cases hk : k ≤ (ofRows out).length
  · exact .inr (by rw [List.take_append_of_le_length hk, List.take_append_of_le_length hk])
  · obtain ⟨i, rfl⟩ : ∃ i, k = (ofRows out).length + (i + 1) :=
      ⟨k - (ofRows out).length - 1, by omega⟩
    rw [List.take_length_add_append, List.take_succ_cons]
    exact .inl (by simp [Overflows])

theorem collect (h : feed.Agrees ideal) :
    feed.collect = .error (.abandoned .overflow) ∨ feed.collect = ideal.collect := by
  rcases h with rfl | ⟨out, later, rest, rfl, rfl⟩
  · exact .inr rfl
  · exact .inl (collect_failing out _ later)

end Agrees

/-- A prompt stage keeps the agreement. -/
theorem Prompt.agrees {P : Row α → Prop} {Q : Row β → Prop} {stage : Feed α → Feed β}
    (h : Prompt C P stage Q) (hfeed : Sound C P feed) (hagrees : feed.Agrees ideal) :
    (stage feed).Agrees (stage ideal) := by
  rcases hagrees with rfl | ⟨out, later, rest, rfl, rfl⟩
  · exact .refl _
  rcases h.reads out hfeed.forall_mem with hdone | ⟨out', hwait⟩
  · exact .inl (by rw [hdone, hdone])
  · obtain ⟨later', hlater⟩ := hwait.hands_on (.abandoned .overflow) later
    obtain ⟨rest', hrest⟩ := hwait.handed_out rest
    exact .inr ⟨out', later', rest', hlater, hrest⟩

/-- The induction runs over the rows. -/
theorem agrees_checkedRatesFrom (policy : CounterWrap) (tracked : List Tracked)
    (rows : List (Row Value)) :
    (checkedRatesFrom policy tracked (ofRows rows)).Agrees
      (scanRows (rateRow policy) tracked (ofRows rows)) := by
  induction rows generalizing tracked with
  | nil => exact .refl _
  | cons row rest ih =>
    rw [ofRows_cons, checkedRatesFrom, scanRows]
    split
    · exact .of_overflow _ _
    · exact (ih (rateRow policy tracked row).2).cons _

/-- The induction runs over the requests. -/
theorem agrees_attempt? (n : Nat) {r : Resampling} {rows : List (Row Value)} (h : r.Holds rows) :
    (run Resampling.attempt? n r).Agrees (run Resampling.next? n r) := by
  induction n generalizing r rows with
  | zero => exact .inl (by rw [run, run, Resampling.attempt?, Option.isSome_map])
  | succ n ih =>
    cases hp : r.points.next? with
    | none =>
      have hnone := Resampling.next?_of_none hp
      exact .inl (by rw [run, run, Resampling.attempt?, hnone, Option.map_none])
    | some step =>
      obtain ⟨r', hclose, -, hholds, -⟩ := Resampling.close?_eq h hp
      cases hover : r.requestOverflows with
      | true =>
        obtain ⟨later, hlater⟩ := run_of_error (Resampling.attempt?_of_overflow hclose hover) n
        rw [hlater]
        exact .of_overflow _ _
      | false =>
        rw [run, run, Resampling.attempt?_of_close? hclose hover, Resampling.next?_of_close? hclose]
        exact (ih hholds).cons _

end Feed

end Telemetry
