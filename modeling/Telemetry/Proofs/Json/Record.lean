import Telemetry.Proofs.Attributes
import Telemetry.Proofs.Json.Alike
import Telemetry.Proofs.Time.Range

/-!
# Readings read back from JSON

A reading is written as an object, and from its text it is read back field by field, whatever writer
and reader restore this object. Two things do not come through: the fraction of a millisecond of its
instant, since instants are written in whole milliseconds, and a number that has no notation, since
`null` stands in its place.
-/

namespace Telemetry

namespace Json

variable {fields : List (String × Json)}

/-! ## Well-formed trees -/

theorem wellFormed_ofString (s : String) : (ofString s).WellFormed := by
  refine .string fun p hp => ?_
  obtain ⟨c, -, rfl⟩ := List.mem_map.1 hp
  trivial

theorem wellFormed_ofInt (n : Int) : (ofInt n).WellFormed :=
  .number (NumberLiteral.wellFormed_ofInt n)

theorem wellFormed_ofFloat (x : Float) : (ofFloat x).WellFormed := by
  unfold ofFloat
  cases h : NumberLiteral.ofFloat? x with
  | none => exact .null
  | some l => exact .number (NumberLiteral.wellFormed_ofFloat? h)

theorem wellFormed_ofFields (h : ∀ f ∈ fields, f.2.WellFormed) : (ofFields fields).WellFormed := by
  refine .object (fun f hf p hp => ?_) fun f hf => ?_
  · obtain ⟨f, -, rfl⟩ := List.mem_map.1 hf
    obtain ⟨c, -, rfl⟩ := List.mem_map.1 hp
    trivial
  · obtain ⟨g, hg, rfl⟩ := List.mem_map.1 hf
    exact h g hg

end Json

open Json

variable {j : Json}

/-! ## Parts of readings -/

theorem Attributes.ofJson?_of_alike {a : Attributes} (h : a.toJson.Alike j) :
    ofJson? j = some a := by
  obtain ⟨fields, found, rfl, hkeyed, hfound⟩ := h.exists_fields
  have hentries : found.mapM (fun f => f.2.string?.map (f.1, ·)) = some a.entries := by
    have hread := (List.forall₂_map_left_iff.1 hfound).flip
    refine mapM_eq_some_of_forall₂ (hread.imp fun g e hge => ?_)
    obtain ⟨hkey, hvalue⟩ := hge
    rw [hvalue.string?_eq, ← hkey]
    rfl
  have hlist : ofList a.entries = a := eq_of_entries (entries_foldl_insert a.sorted)
  show (keyed? fields).bind _ = _
  rw [hkeyed, Option.bind_some]
  refine (congrArg (fun found : Option _ => found.bind fun l => some (ofList l)) hentries).trans ?_
  rw [Option.bind_some, hlist]

/-- Attributes that are left out are none, and those that are there are not `null`. -/
theorem Attributes.ofField?_of_rel {a? : Option Attributes} {j? : Option Json}
    (h : Option.Rel Alike (a?.map toJson) j?) : ofField? j? = some a? := by
  cases a? with
  | none =>
    cases h
    rfl
  | some a =>
    obtain ⟨j, rfl, hj⟩ := exists_of_rel_some h
    have hread := ofJson?_of_alike hj
    cases hj with
    | object => exact congrArg (Option.map some) hread

theorem Attributes.wellFormed_toJson (a : Attributes) : a.toJson.WellFormed := by
  refine wellFormed_ofFields fun f hf => ?_
  obtain ⟨e, -, rfl⟩ := List.mem_map.1 hf
  exact wellFormed_ofString e.2

namespace NumberLiteral

/-- A number that is read back from its notation as it was. -/
def Legible (x : Float) : Prop :=
  (ofFloat? x).bind float? = some x

instance (x : Float) : Decidable (Legible x) :=
  inferInstanceAs (Decidable (_ = _))

end NumberLiteral

theorem Json.Alike.float?_eq {x : Float} (h : (ofFloat x).Alike j)
    (hx : NumberLiteral.Legible x) : j.float? = some x := by
  obtain ⟨l, hl, hread⟩ := Option.bind_eq_some_iff.1 hx
  rw [ofFloat, hl] at h
  cases h with
  | number hfloat => exact hfloat.trans hread

namespace Value

/-- The number of a value is read back as it was; words always are. -/
def Legible : Value → Prop
  | gauge x => NumberLiteral.Legible x
  | counter _ | derive _ | absolute _ => True

variable {v : Value}

theorem ofKind?_of_alike (h : v.numberJson.Alike j) (hv : v.Legible) :
    ofKind? j v.kind = some v := by
  cases v with
  | gauge x => exact congrArg (Option.map gauge) (h.float?_eq hv)
  | counter w => exact congrArg (Option.map counter) h.word?_eq
  | derive w => exact congrArg (Option.map derive) h.word?_eq
  | absolute w => exact congrArg (Option.map absolute) h.word?_eq

theorem kind_of_alike {k : MetricKind} (h : k.toJson.Alike j) :
    MetricKind.ofJson? j = some k := by
  show (j.name?).bind _ = _
  rw [h.name?_eq]
  cases k <;> rfl

theorem ofJson?_of_alike (h : v.toJson.Alike j) (hv : v.Legible) : ofJson? j = some v := by
  obtain ⟨fields, hrecord, hfields⟩ := h.exists_record
    (show ∀ f ∈ [("type", v.kind.toJson), ("value", v.numberJson)], f.1 ∈ ["type", "value"] by simp)
    (by simp)
  obtain ⟨type, htype, hkind⟩ := exists_of_rel_some (hfields "type")
  obtain ⟨number, hvalue, hnumber⟩ := exists_of_rel_some (hfields "value")
  simp only [ofJson?, hrecord, htype, hvalue, kind_of_alike hkind, Option.bind_eq_bind,
    Option.bind_some, ofKind?_of_alike hnumber hv]

theorem wellFormed_numberJson (v : Value) : v.numberJson.WellFormed := by
  cases v with
  | gauge x => exact wellFormed_ofFloat x
  | counter w | derive w | absolute w => exact wellFormed_ofInt w.toNat

theorem wellFormed_toJson (v : Value) : v.toJson.WellFormed := by
  refine wellFormed_ofFields ?_
  rintro f hf
  rcases List.mem_pair.1 hf with rfl | rfl
  · exact wellFormed_ofString _
  · exact wellFormed_numberJson v

end Value

/-! ## Instants -/

namespace Timestamp

/-- The instant without the fraction of a millisecond, counted in milliseconds. -/
def inMillis (t : Timestamp) : Timestamp :=
  .ofTicks t.millis .milliseconds

theorem ofJson?_of_alike {t : Timestamp} (h : t.toJson.Alike j) : ofJson? j = some t.inMillis := by
  have hsigned : j.signed? = some t.millis := by
    refine h.signed?_eq ?_ ?_ <;> rw [millis_eq_clampTicks]
    · exact minTicks_le_clampTicks _
    · exact clampTicks_le_maxTicks _
  show (signed? _).bind _ = _
  rw [hsigned]
  rfl

theorem nanos_inMillis (t : Timestamp) :
    t.inMillis.nanos = clampTicks (t.nanos.tdiv 1000000) * 1000000 := by
  show clampTicks t.millis * 1000000 = _
  rw [millis_eq_clampTicks, clampTicks_of_mem (minTicks_le_clampTicks _) (clampTicks_le_maxTicks _)]

/-- Whole milliseconds within the range of a count are kept. -/
theorem nanos_inMillis_eq_iff {t : Timestamp} :
    t.inMillis.nanos = t.nanos ↔ Fits t.nanos .milliseconds ∧ 1000000 ∣ t.nanos := by
  constructor
  · intro h
    rw [← h, nanos_inMillis]
    exact ⟨⟨mul_le_mul_of_nonneg_right (minTicks_le_clampTicks _) (by decide),
      mul_le_mul_of_nonneg_right (clampTicks_le_maxTicks _) (by decide)⟩, Int.dvd_mul_left _ _⟩
  · rintro ⟨hfits, hdvd⟩
    rw [nanos_inMillis, ← millis_eq_clampTicks]
    exact (whole_of_dvd hfits hdvd).symm

end Timestamp

/-! ## Readings -/

namespace Reading

variable {α : Type} {r : Reading α}

theorem wellFormed_toJson {value : α → Json} (hvalue : (value r.value).WellFormed) :
    (r.toJson value).WellFormed := by
  refine wellFormed_ofFields fun f hf => ?_
  rcases List.mem_append.1 hf with hf | hf
  · cases ha : r.attributes with
    | none =>
      rw [ha] at hf
      cases hf
    | some a =>
      rw [ha] at hf
      obtain rfl := List.mem_singleton.1 hf
      exact a.wellFormed_toJson
  · simp only [List.mem_cons, List.not_mem_nil, or_false] at hf
    rcases hf with rfl | rfl | rfl | rfl
    · exact wellFormed_ofString _
    · exact wellFormed_ofString _
    · exact wellFormed_ofInt _
    · exact hvalue

/-- The fields of the reading's object. -/
def fields (value : α → Json) (r : Reading α) : List (String × Json) :=
  (match r.attributes with
    | none => []
    | some a => [("attributes", a.toJson)]) ++
  [("name", ofString r.name), ("resource", ofString r.resource),
    ("timestamp", r.timestamp.toJson), ("value", value r.value)]

theorem names_fields (value : α → Json) (r : Reading α) :
    (∀ f ∈ r.fields value, f.1 ∈ ["timestamp", "resource", "name", "value", "attributes"]) ∧
      ((r.fields value).map (·.1)).Nodup := by
  cases ha : r.attributes <;> simp [fields, ha]

theorem lookup_fields (value : α → Json) (r : Reading α) :
    (r.fields value).lookup "timestamp" = some r.timestamp.toJson ∧
      (r.fields value).lookup "resource" = some (ofString r.resource) ∧
      (r.fields value).lookup "name" = some (ofString r.name) ∧
      (r.fields value).lookup "value" = some (value r.value) ∧
      (r.fields value).lookup "attributes" = r.attributes.map Attributes.toJson := by
  cases ha : r.attributes <;> simp [fields, ha, List.lookup_cons]

/-- A reading is read field by field, with what is read for its value. -/
theorem ofJson?_of_alike {value : α → Json} (h : (r.toJson value).Alike j)
    (value? : Json → Option α) : ∃ found, (value r.value).Alike found ∧
      ofJson? value? j = (value? found).map fun v =>
        { r with timestamp := r.timestamp.inMillis, value := v } := by
  have hobject : (ofFields (r.fields value)).Alike j := h
  obtain ⟨hnames, hnodup⟩ := r.names_fields value
  obtain ⟨timestamp, resource, name, found, attributes⟩ := r.lookup_fields value
  obtain ⟨record, hrecord, hfound⟩ := hobject.exists_record hnames hnodup
  obtain ⟨t, htimestamp, ht⟩ := exists_of_rel_some (timestamp ▸ hfound "timestamp")
  obtain ⟨s, hresource, hs⟩ := exists_of_rel_some (resource ▸ hfound "resource")
  obtain ⟨n, hname, hn⟩ := exists_of_rel_some (name ▸ hfound "name")
  obtain ⟨v, hvalue, hv⟩ := exists_of_rel_some (found ▸ hfound "value")
  have hattributes := Attributes.ofField?_of_rel (attributes ▸ hfound "attributes")
  refine ⟨v, hv, ?_⟩
  simp only [ofJson?, hrecord, htimestamp, hresource, hname, hvalue, hattributes,
    Timestamp.ofJson?_of_alike ht, hs.string?_eq, hn.string?_eq, Option.bind_eq_bind,
    Option.bind_some]
  cases value? v <;> rfl

end Reading

/-! ## Readings restored -/

section Restored

variable {write : Json → String} {read? : String → Option Json}

/-- Whatever restores the object of a reading, the reading is read back, with what is read for its
value. -/
theorem Reading.read_restored {α : Type} {r : Reading α} {value : α → Json}
    (h : Restores write read? (r.toJson value)) (value? : Json → Option α) :
    ∃ found, (value r.value).Alike found ∧
      (read? (write (r.toJson value))).bind (ofJson? value?) = (value? found).map fun v =>
        { r with timestamp := r.timestamp.inMillis, value := v } := by
  obtain ⟨j, hread, hj⟩ := h
  rw [hread, Option.bind_some]
  exact ofJson?_of_alike hj value?

theorem Sample.read_restored {s : Sample} (h : Restores write read? s.toJson)
    (hvalue : s.value.Legible) : (read? (write s.toJson)).bind Sample.ofJson? =
      some { s with timestamp := s.timestamp.inMillis } := by
  obtain ⟨found, hfound, hread⟩ := Reading.read_restored h Value.ofJson?
  exact hread.trans (by rw [Value.ofJson?_of_alike hfound hvalue]; rfl)

theorem Measurement.read_restored {m : Measurement} (h : Restores write read? m.toJson)
    (hvalue : NumberLiteral.Legible m.value) : (read? (write m.toJson)).bind Measurement.ofJson? =
      some { m with timestamp := m.timestamp.inMillis } := by
  obtain ⟨found, hfound, hread⟩ := Reading.read_restored h Json.float?
  exact hread.trans (by rw [hfound.float?_eq hvalue]; rfl)

/-- A value without a notation is not read. -/
theorem Measurement.unread {m : Measurement} (h : Restores write read? m.toJson)
    (hvalue : ofFloat m.value = .null) :
    (read? (write m.toJson)).bind Measurement.ofJson? = none := by
  obtain ⟨found, hfound, hread⟩ := Reading.read_restored h Json.float?
  rw [hvalue] at hfound
  cases hfound
  exact hread

end Restored

theorem Sample.restores_text (s : Sample) :
    Restores text (fun t => parse? t.toList) s.toJson :=
  Json.restores_text (Reading.wellFormed_toJson s.value.wellFormed_toJson)

theorem Sample.read_text (s : Sample) (h : s.value.Legible) :
    (parse? s.toJson.text.toList).bind Sample.ofJson? =
      some { s with timestamp := s.timestamp.inMillis } :=
  read_restored s.restores_text h

theorem Measurement.restores_text (m : Measurement) :
    Restores text (fun t => parse? t.toList) m.toJson :=
  Json.restores_text (Reading.wellFormed_toJson (wellFormed_ofFloat m.value))

theorem Measurement.read_text (m : Measurement) (h : NumberLiteral.Legible m.value) :
    (parse? m.toJson.text.toList).bind Measurement.ofJson? =
      some { m with timestamp := m.timestamp.inMillis } :=
  read_restored m.restores_text h

theorem Measurement.unread_text (m : Measurement) (h : ofFloat m.value = .null) :
    (parse? m.toJson.text.toList).bind Measurement.ofJson? = none :=
  unread m.restores_text h

/-- From its text a sample or measurement is read back with the same resource, name, attributes and
value, provided that its number can be read back from its notation. Its instant loses the fraction
of a millisecond and stops at the ends of the range of a count, so that it stays the same just if it
is a whole number of milliseconds in this range. -/
theorem Reading.read_written :
    (∀ s : Sample, s.value.Legible → (parse? s.toJson.text.toList).bind Sample.ofJson? =
      some { s with timestamp := s.timestamp.inMillis }) ∧
    (∀ m : Measurement, NumberLiteral.Legible m.value →
      (parse? m.toJson.text.toList).bind Measurement.ofJson? =
        some { m with timestamp := m.timestamp.inMillis }) ∧
    (∀ t : Timestamp, t.inMillis.nanos = clampTicks (t.nanos.tdiv 1000000) * 1000000) ∧
    ∀ t : Timestamp,
      t.inMillis.nanos = t.nanos ↔ Fits t.nanos .milliseconds ∧ 1000000 ∣ t.nanos := by
  exact ⟨Sample.read_text, Measurement.read_text, Timestamp.nanos_inMillis,
    fun _ => Timestamp.nanos_inMillis_eq_iff⟩

/-- A counter of microseconds with a line break and a control character in its attributes, and a
measurement of one half. -/
theorem Reading.read_written_escapes :
    let s : Sample := ⟨.ofTicks 1500900 .microseconds, "host \"a\"", "cpu", .counter 42,
      some (.ofList [("note", "one\ntwo\u0001")])⟩
    let m : Measurement := ⟨.ofTicks 3 .minutes, "host", "load", 0.5, none⟩
    s.value.Legible ∧ NumberLiteral.Legible m.value ∧
      (parse? s.toJson.text.toList).bind Sample.ofJson? =
        some { s with timestamp := .ofTicks 1500 .milliseconds } ∧
      (parse? m.toJson.text.toList).bind Measurement.ofJson? =
        some { m with timestamp := .ofTicks 180000 .milliseconds } ∧
      m.timestamp.inMillis.nanos = m.timestamp.nanos := by
  intro s m
  have hs : s.value.Legible := trivial
  have hm : NumberLiteral.Legible m.value := by decide +kernel
  obtain ⟨hsample, hmeasurement, -, hinstant⟩ := Reading.read_written
  exact ⟨hs, hm, hsample s hs, hmeasurement m hm, (hinstant _).2 (by decide)⟩

/-- What is unknown is written as `null`, which is not read as a number, and of an instant in
microseconds only the milliseconds come back. -/
theorem Reading.unknown_unread :
    let m := Measurement.unknown (.ofTicks 0 .seconds) "host" "load"
    let s : Sample := ⟨.ofTicks 1500 .microseconds, "host", "cpu", .counter 42, none⟩
    (parse? m.toJson.text.toList).bind Measurement.ofJson? = none ∧
      ((parse? s.toJson.text.toList).bind Sample.ofJson?).map (·.timestamp.nanos) = some 1000000 ∧
      s.timestamp.nanos = 1500000 := by
  intro m s
  have hnull : ofFloat m.value = .null := by
    have hnone : NumberLiteral.ofFloat? m.value = none := by decide +kernel
    rw [ofFloat, hnone]
  have hword : s.value.Legible := trivial
  refine ⟨m.unread_text hnull, ?_, by decide⟩
  rw [Sample.read_text s hword]
  decide

end Telemetry
