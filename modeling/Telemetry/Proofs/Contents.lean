import Telemetry.Feed.Buckets
import Telemetry.Feed.Calculated
import Telemetry.Proofs.Buckets.Run
import Telemetry.Proofs.Removal

/-!
# Rows that show the same

What a row shows are its names with their values and attributes. When it shows them is said by
timestamps, and one instant can be written in several units. No stage behind the primary points
looks at the timestamps of readings, so rows that show the same are turned into rows that show the
same.
-/

namespace Telemetry

section Contents

variable {α : Type} {r r' : Reading α} {l l' rs rs' : List (Reading α)} {row row' : Row α}
  {name : String}

/-- What a reading says apart from where and when. -/
def Reading.content (r : Reading α) : String × α × Option Attributes :=
  (r.name, r.value, r.attributes)

def Row.contents (row : Row α) : List (String × α × Option Attributes) :=
  row.readings.map Reading.content

theorem Reading.content_eq_iff : r.content = r'.content ↔
    r.name = r'.name ∧ r.value = r'.value ∧ r.attributes = r'.attributes := by
  simp [Reading.content]

theorem find?_content (h : l.map Reading.content = l'.map Reading.content) (name : String) :
    (l.find? (·.name = name)).map Reading.content =
      (l'.find? (·.name = name)).map Reading.content := by
  have hfind (l : List (Reading α)) : (l.find? (·.name = name)).map Reading.content =
      (l.map Reading.content).find? (·.1 = name) := by
    rw [List.find?_map]
    rfl
  rw [hfind, hfind, h]

theorem eraseP_content (h : l.map Reading.content = l'.map Reading.content) (name : String) :
    (l.eraseP (·.name = name)).map Reading.content =
      (l'.eraseP (·.name = name)).map Reading.content := by
  have herase (l : List (Reading α)) : (l.eraseP (·.name = name)).map Reading.content =
      (l.map Reading.content).eraseP (·.1 = name) := by
    rw [List.eraseP_map]
    rfl
  rw [herase, herase, h]

theorem Row.get?_content (h : row.contents = row'.contents) (name : String) :
    row.get? name = none ∧ row'.get? name = none ∨
      ∃ m m', row.get? name = some m ∧ row'.get? name = some m' ∧ m.content = m'.content := by
  have hget : (row.get? name).map Reading.content = (row'.get? name).map Reading.content :=
    find?_content h name
  cases hm : row.get? name with
  | none => exact .inl ⟨rfl, by simpa [hm, eq_comm] using hget⟩
  | some m =>
    rw [hm, Option.map_some, eq_comm, Option.map_eq_some_iff] at hget
    obtain ⟨m', hm', hcontent⟩ := hget
    exact .inr ⟨m, m', rfl, hm', hcontent.symm⟩

/-- The induction runs over both lists of readings at once. -/
theorem Row.place_content (h : l.map Reading.content = l'.map Reading.content)
    (hr : r.content = r'.content) :
    (place r l).map Reading.content = (place r' l').map Reading.content := by
  induction l generalizing l' with
  | nil =>
    obtain rfl : l' = [] := List.map_eq_nil_iff.1 h.symm
    simp [place, hr]
  | cons s rest ih =>
    obtain ⟨s', rest', rfl, hs, hrest⟩ := List.map_eq_cons_iff.1 h.symm
    have hname := (Reading.content_eq_iff.1 hr).1
    have hname' := (Reading.content_eq_iff.1 hs).1
    by_cases hsame : s.name = r.name
    · have hsame' : s'.name = r'.name := by rw [hname', hsame, hname]
      simp [place, hsame, hsame', hr, hrest]
    · have hsame' : ¬ s'.name = r'.name := by rwa [hname', ← hname]
      simp [place, hsame, hsame', hs, ih hrest.symm]

theorem Row.insert_content (h : row.contents = row'.contents) (hr : r.content = r'.content) :
    (row.insert r).contents = (row'.insert r').contents :=
  place_content h hr

theorem Row.insertAll_content (h : row.contents = row'.contents)
    (hrs : rs.map Reading.content = rs'.map Reading.content) :
    (row.insertAll rs).contents = (row'.insertAll rs').contents := by
  induction rs generalizing rs' row row' with
  | nil =>
    obtain rfl : rs' = [] := List.map_eq_nil_iff.1 hrs.symm
    exact h
  | cons r rest ih =>
    obtain ⟨r', rest', rfl, hr, hrest⟩ := List.map_eq_cons_iff.1 hrs.symm
    show ((row.insert r).insertAll rest).contents = ((row'.insert r').insertAll rest').contents
    exact ih (insert_content h hr.symm) hrest.symm

end Contents

/-! ## Stages -/

section Stages

variable {row row' up up' : Row Float} {rows rows' : List (Row Float)} {c c' : Timestamp}
  {resource resource' : String}

theorem Bucket.add_content (h : row.contents = row'.contents) (b : Bucket) :
    b.add row = b.add row' := by
  unfold add
  rcases Row.get?_content h b.datasource.label with ⟨hm, hm'⟩ | ⟨m, m', hm, hm', hcontent⟩
  · rw [hm, hm']
  · obtain ⟨-, hvalue, hattributes⟩ := Reading.content_eq_iff.1 hcontent
    rw [hm, hm']
    dsimp only
    rw [hvalue, hattributes]

theorem Bucket.addAll_content (h : rows.map Row.contents = rows'.map Row.contents) (b : Bucket) :
    b.addAll rows = b.addAll rows' := by
  induction rows generalizing rows' b with
  | nil =>
    obtain rfl : rows' = [] := List.map_eq_nil_iff.1 h.symm
    rfl
  | cons row rest ih =>
    obtain ⟨row', rest', rfl, hrow, hrest⟩ := List.map_eq_cons_iff.1 h.symm
    have hadd : b.addAll (row :: rest) = (b.add row').addAll rest := by
      rw [← add_content hrow.symm]
      rfl
    exact hadd.trans (ih hrest.symm (b.add row'))

theorem Descriptor.consolidated_content (d : Descriptor) (pointsPerBucket : Float)
    (h : rows.map Row.contents = rows'.map Row.contents) :
    (d.consolidated resource pointsPerBucket rows c).contents =
      (d.consolidated resource' pointsPerBucket rows' c').contents := by
  refine Row.insertAll_content rfl ?_
  rw [List.map_map, List.map_map]
  apply List.map_congr_left
  intro b _
  simp only [Function.comp_apply, Reading.content, Bucket.measurement, Bucket.addAll_content h]

namespace Calculation

variable {calculation : Calculation} {cs : List Calculation} {args : List Float}

theorem arguments_content (h : row.contents = row'.contents)
    (hargs : calculation.arguments row = .ok args) : calculation.arguments row' = .ok args := by
  refine mapM_ok_of_imp (fun operand x hx => ?_) hargs
  cases operand with
  | constant y => exact hx
  | label name =>
    dsimp only at hx ⊢
    rcases Row.get?_content h name with ⟨hm, hm'⟩ | ⟨m, m', hm, hm', hcontent⟩
    · rw [hm] at hx
      cases hx
    · rw [hm] at hx
      rw [hm']
      dsimp only
      rw [← (Reading.content_eq_iff.1 hcontent).2.1]
      exact hx

/-- The induction runs over the calculations; what they have added so far is the same. -/
theorem foldlM_content (h : row.contents = row'.contents) (hup : cs.foldlM extend row = .ok up)
    (hup' : cs.foldlM extend row' = .ok up') : up.contents = up'.contents := by
  induction cs generalizing row row' with
  | nil =>
    obtain rfl := Except.ok.inj hup
    obtain rfl := Except.ok.inj hup'
    exact h
  | cons calculation rest ih =>
    rw [List.foldlM_cons, extend] at hup hup'
    cases hargs : calculation.arguments row with
    | error e =>
      rw [hargs] at hup
      cases hup
    | ok args =>
      rw [hargs] at hup
      rw [arguments_content h hargs] at hup'
      refine ih ?_ hup hup'
      exact Row.insert_content h rfl

end Calculation

theorem Feed.takeInOrder_content {ms ms' : List Measurement}
    (h : ms.map Reading.content = ms'.map Reading.content) (t t' : Timestamp)
    (resource resource' : String) (labels : List String) :
    (takeInOrder t resource labels ms).map Reading.content =
      (takeInOrder t' resource' labels ms').map Reading.content := by
  induction labels generalizing ms ms' with
  | nil => rfl
  | cons label rest ih =>
    have hfind := find?_content h label
    rw [takeInOrder, takeInOrder, List.map_cons, List.map_cons, ih (eraseP_content h label),
      ← Option.getD_map Reading.content, ← Option.getD_map Reading.content, hfind]
    rfl

theorem Feed.exportRow_content (h : row.contents = row'.contents) (exports : List String) :
    (exportRow exports row).contents = (exportRow exports row').contents := by
  rw [exportRow_eq_inOrder, exportRow_eq_inOrder]
  exact Row.insertAll_content rfl (takeInOrder_content h _ _ _ _ exports)

end Stages

end Telemetry
