import Telemetry.Config
import Telemetry.Proofs.Time.Text
import Telemetry.Proofs.Toml.Alike

/-!
# Configurations read back

A configuration is written as a document and read back field by field, whatever writer and reader
restore this document. What is not set is left out of the document, and so it is not set when the
document is read, whatever its default; a list without items is written and read as such.
-/

namespace Telemetry

open Toml TomlNode

/-! ## Fields -/

section Fields

variable {α : Type} {fields found : List (String × Toml)} {name : String} {read : Toml → Option α}
  {v : Toml} {a : α} {n : Nat}

/-- In the second record the same is found as in the first one. -/
def SameFields (fields found : List (String × Toml)) : Prop :=
  ∀ name, Option.Rel Alike (fields.lookup name) (found.lookup name)

theorem SameFields.required (hfound : SameFields fields found) (h : fields.lookup name = some v)
    (hread : ∀ v', v.Alike v' → read v' = some a) : required found name read = some a := by
  obtain ⟨v', hv', halike⟩ := exists_of_rel_some (h ▸ hfound name)
  rw [Toml.required, hv', Option.bind_some, hread v' halike]

theorem SameFields.withDefault (hfound : SameFields fields found) (h : fields.lookup name = some v)
    (hread : ∀ v', v.Alike v' → read v' = some a) (default : α) :
    withDefault found name read default = some a := by
  obtain ⟨v', hv', halike⟩ := exists_of_rel_some (h ▸ hfound name)
  rw [Toml.withDefault, hv']
  exact hread v' halike

/-- A field that is left out if there is nothing to write. -/
theorem SameFields.optional {o : Option α} {write : α → Toml} (hfound : SameFields fields found)
    (h : fields.lookup name = o.map write) (hread : ∀ a v, (write a).Alike v → read v = some a) :
    Toml.withDefault found name (fun v => (read v).map some) none = some o := by
  cases o with
  | none =>
    have hrel := hfound name
    rw [h] at hrel
    obtain ⟨-, hnone⟩ | ⟨_, _, heq, -⟩ := rel_iff.1 hrel
    · rw [Toml.withDefault, hnone]
    · cases heq
  | some a => exact hfound.withDefault h (fun v hv => by rw [hread a v hv]; rfl) none

/-- Items are read one by one. -/
theorem list?_of_alike {items : List α} {write : α → Toml}
    (h : Alike (.array (items.map write)) v)
    (hread : ∀ a ∈ items, ∀ v, (write a).Alike v → read v = some a) :
    list? read v = some items := by
  cases h with
  | @array _ items' h =>
    have hitems := forall₂_mem (List.forall₂_map_left_iff.1 h)
    exact mapM_eq_some_of_forall₂ (hitems.flip.imp fun v a ⟨ha, _, hv⟩ => hread a ha v hv)

/-- A list of records, which is written on a line if it is empty. -/
theorem laid_records {items : List α} {write : α → List (String × Toml)}
    (hkeys : ∀ a ∈ items, (keys (write a)).Nodup) (h : ∀ a ∈ items, ∀ f ∈ write a, Laid n f.2) :
    Laid (n + 1) (.array (items.map fun a => .table (write a))) := by
  cases items with
  | nil => exact .line (.array nofun)
  | cons a items =>
    have htables : Laid (n + 1) (.array (((a :: items).map write).map .table)) :=
      .tables (by simp) (by simpa using hkeys) (by simpa using h)
    rwa [List.map_map] at htables

theorem forall_optionalField {P : String × Toml → Prop} {o : Option Toml} :
    (∀ f ∈ optionalField name o, P f) ↔ ∀ v ∈ o, P (name, v) := by
  cases o <;> simp [optionalField]

theorem Toml.Alike.string?_eq {s : String} (h : Alike (.string s) v) : v.string? = some s := by
  cases h
  rfl

theorem Toml.Alike.name?_eq {s : String} (h : Alike (.string s) v) : v.name? = some s := by
  cases h
  rfl

theorem Toml.Alike.integerValue?_eq {n : Int} (h : Alike (.integer n) v) :
    v.integerValue? = some n := by
  cases h
  rfl

theorem Toml.Alike.number?_eq {x : Float} (h : Alike (.float x) v) : v.number? = some x := by
  cases h
  rfl

theorem Toml.Alike.duration?_eq {d : Duration} (h : d.toToml.Alike v) : v.duration? = some d := by
  cases h
  exact Duration.parse?_text d

/-- Behind a table stands a table that is read as a record in which the same is found. -/
theorem Toml.Alike.exists_record (h : Alike (.table fields) v) (names : List String) :
    ∃ found, record? names v = some found ∧ SameFields fields found := by
  cases h with
  | @table _ found h => exact ⟨found, rfl, h⟩

end Fields

/-! ## Datasources -/

namespace DatasourceEntry

variable {e : DatasourceEntry} {v : Toml} {n : Nat}

/-- The fields of the datasource's table. -/
def fields (e : DatasourceEntry) : List (String × Toml) :=
  [("label", .string e.label), ("source", .string e.source), ("function", .string e.function.name)]
    ++ optionalField "heartbeat" (e.heartbeat.map (·.toToml))
    ++ optionalField "xff" (e.xff.map .float)

theorem nodup_fields (e : DatasourceEntry) : (keys e.fields).Nodup := by
  cases hheartbeat : e.heartbeat <;> cases hxff : e.xff <;>
    simp [fields, hheartbeat, hxff, optionalField, keys]

theorem laid_fields (h : ∀ x ∈ e.xff, Legible x) (n : Nat) : ∀ f ∈ e.fields, Laid n f.2 := by
  have hstring (s : String) : Laid n (.string s) := .line (.scalar trivial)
  simp only [fields, List.forall_mem_append, List.forall_mem_cons, forall_optionalField,
    Option.forall_mem_map]
  exact ⟨⟨⟨hstring _, hstring _, hstring _, nofun⟩, fun d _ => hstring d.text⟩,
    fun x hx => .line (.scalar (h x hx))⟩

theorem lookup_heartbeat (e : DatasourceEntry) :
    e.fields.lookup "heartbeat" = e.heartbeat.map Duration.toToml := by
  cases hheartbeat : e.heartbeat <;> cases hxff : e.xff <;>
    simp [fields, hheartbeat, hxff, optionalField, List.lookup_cons]

theorem lookup_xff (e : DatasourceEntry) : e.fields.lookup "xff" = e.xff.map Toml.float := by
  cases hheartbeat : e.heartbeat <;> cases hxff : e.xff <;>
    simp [fields, hheartbeat, hxff, optionalField, List.lookup_cons]

theorem ofToml?_of_alike (h : e.toToml.Alike v) : ofToml? v = some e := by
  have htable : Alike (.table e.fields) v := h
  obtain ⟨found, hrecord, hfound⟩ := htable.exists_record
    ["label", "source", "function", "heartbeat", "xff"]
  have hlabel : required found "label" string? = some e.label :=
    hfound.required rfl fun _ hv => hv.string?_eq
  have hsource : required found "source" string? = some e.source :=
    hfound.required rfl fun _ hv => hv.string?_eq
  have hfunction : withDefault found "function" (fun v => v.name?.bind Consolidation.ofName?)
      .average = some e.function :=
    hfound.withDefault rfl (fun _ hv => by rw [hv.name?_eq]; cases e.function <;> rfl) _
  have hheartbeat : withDefault found "heartbeat" (fun v => v.duration?.map some) none =
      some e.heartbeat :=
    hfound.optional e.lookup_heartbeat fun _ _ hv => hv.duration?_eq
  have hxff : withDefault found "xff" (fun v => v.number?.map some) none = some e.xff :=
    hfound.optional e.lookup_xff fun _ _ hv => hv.number?_eq
  simp only [ofToml?, hrecord, hlabel, hsource, hfunction, hheartbeat, hxff, Option.bind_eq_bind,
    Option.bind_some]
  rfl

end DatasourceEntry

/-! ## Calculations -/

namespace ExpressionEntry

variable {e : ExpressionEntry} {v : Toml}

/-- The fields of the calculation's table. -/
def fields (e : ExpressionEntry) : List (String × Toml) :=
  [("label", .string e.label), ("expression", .string e.expression)]

theorem nodup_fields (e : ExpressionEntry) : (keys e.fields).Nodup := by
  simp [fields, keys]

theorem laid_fields (e : ExpressionEntry) (n : Nat) : ∀ f ∈ e.fields, Laid n f.2 := by
  simp only [fields, List.forall_mem_cons]
  exact ⟨.line (.scalar trivial), .line (.scalar trivial), nofun⟩

theorem ofToml?_of_alike (h : e.toToml.Alike v) : ofToml? v = some e := by
  have htable : Alike (.table e.fields) v := h
  obtain ⟨found, hrecord, hfound⟩ := htable.exists_record
    ["label", "expression"]
  have hlabel : required found "label" string? = some e.label :=
    hfound.required rfl fun _ hv => hv.string?_eq
  have hexpression : required found "expression" string? = some e.expression :=
    hfound.required rfl fun _ hv => hv.string?_eq
  simp only [ofToml?, hrecord, hlabel, hexpression, Option.bind_eq_bind, Option.bind_some]
  rfl

end ExpressionEntry

/-! ## Descriptors -/

namespace DescriptorEntry

variable {d : DescriptorEntry} {v : Toml} {n : Nat}

/-- The fields of the descriptor's table. -/
def fields (d : DescriptorEntry) : List (String × Toml) :=
  [("name", .string d.name)] ++ optionalField "step" (d.step.map (·.toToml))
    ++ [("datasources", .array (d.datasources.map (·.toToml))),
      ("expressions", .array (d.expressions.map (·.toToml))),
      ("exports", .array (d.exports.map .string))]

theorem nodup_fields (d : DescriptorEntry) : (keys d.fields).Nodup := by
  cases hstep : d.step <;> simp [fields, hstep, optionalField, keys]

theorem laid_fields (h : ∀ e ∈ d.datasources, ∀ x ∈ e.xff, Legible x) (n : Nat) :
    ∀ f ∈ d.fields, Laid (n + 1) f.2 := by
  have hstring (s : String) : Laid (n + 1) (.string s) := .line (.scalar trivial)
  simp only [fields, List.forall_mem_append, List.forall_mem_cons, forall_optionalField,
    Option.forall_mem_map]
  refine ⟨⟨⟨hstring _, nofun⟩, fun d _ => hstring d.text⟩, ?datasources, ?expressions, ?exports,
    nofun⟩
  case datasources =>
    exact laid_records (fun e _ => e.nodup_fields) fun e he => e.laid_fields (h e he) n
  case expressions => exact laid_records (fun e _ => e.nodup_fields) fun e _ => e.laid_fields n
  case exports =>
    refine .line (.array fun item hitem => ?_)
    obtain ⟨s, -, rfl⟩ := List.mem_map.1 hitem
    trivial

theorem lookup_step (d : DescriptorEntry) :
    d.fields.lookup "step" = d.step.map Duration.toToml := by
  cases hstep : d.step <;> simp [fields, hstep, optionalField, List.lookup_cons]

/-- The lists of a descriptor are always written. -/
theorem lookup_lists (d : DescriptorEntry) :
    d.fields.lookup "datasources" = some (.array (d.datasources.map (·.toToml))) ∧
      d.fields.lookup "expressions" = some (.array (d.expressions.map (·.toToml))) ∧
      d.fields.lookup "exports" = some (.array (d.exports.map .string)) := by
  cases hstep : d.step <;> simp [fields, hstep, optionalField, List.lookup_cons]

theorem ofToml?_of_alike (h : d.toToml.Alike v) : ofToml? v = some d := by
  have htable : Alike (.table d.fields) v := h
  obtain ⟨found, hrecord, hfound⟩ := htable.exists_record
    ["name", "step", "datasources", "expressions", "exports"]
  obtain ⟨hdatasources, hexpressions, hexports⟩ := d.lookup_lists
  have hname : required found "name" string? = some d.name :=
    hfound.required rfl fun _ hv => hv.string?_eq
  have hstep : withDefault found "step" (fun v => v.duration?.map some) none = some d.step :=
    hfound.optional d.lookup_step fun _ _ hv => hv.duration?_eq
  have hdatasources' : withDefault found "datasources" (list? DatasourceEntry.ofToml?) [] =
      some d.datasources :=
    hfound.withDefault hdatasources
      (fun _ hv => list?_of_alike hv fun _ _ _ he => DatasourceEntry.ofToml?_of_alike he) _
  have hexpressions' : withDefault found "expressions" (list? ExpressionEntry.ofToml?) [] =
      some d.expressions :=
    hfound.withDefault hexpressions
      (fun _ hv => list?_of_alike hv fun _ _ _ he => ExpressionEntry.ofToml?_of_alike he) _
  have hexports' : withDefault found "exports" (list? string?) [] = some d.exports :=
    hfound.withDefault hexports
      (fun _ hv => list?_of_alike hv fun _ _ _ hs => hs.string?_eq) _
  simp only [ofToml?, hrecord, hname, hstep, hdatasources', hexpressions', hexports',
    Option.bind_eq_bind, Option.bind_some]
  rfl

end DescriptorEntry

/-! ## Configurations -/

namespace Config

variable {c : Config} {v : Toml}

/-- What is asked of a configuration to be read back: 64 bits hold its multiplier, and no number in
it is written as another one is. -/
structure Legible (c : Config) : Prop where
  multiplier : minTicks ≤ c.heartbeatMultiplier ∧ c.heartbeatMultiplier ≤ maxTicks
  xff : Toml.Legible c.xff
  datasources : ∀ d ∈ c.descriptors, ∀ e ∈ d.datasources, ∀ x ∈ e.xff, Toml.Legible x

/-- The fields of the table of defaults. -/
def pipeline (c : Config) : List (String × Toml) :=
  [("counter_wrap", .string c.counterWrap.name),
    ("heartbeat_multiplier", .integer c.heartbeatMultiplier), ("default_xff", .float c.xff),
    ("default_step", c.step.toToml)]

/-- The fields of the table of the log. -/
def monitoring (c : Config) : List (String × Toml) :=
  [("log_level", .string c.logLevel)]

theorem nodup_pipeline (c : Config) : (keys c.pipeline).Nodup := by
  simp [pipeline, keys]

theorem nodup_monitoring (c : Config) : (keys c.monitoring).Nodup := by
  simp [monitoring, keys]

theorem nodup_toToml (c : Config) : (keys c.toToml).Nodup := by
  simp [toToml, keys]

theorem laid_pipeline (h : c.Legible) (n : Nat) : ∀ f ∈ c.pipeline, Laid n f.2 := by
  simp only [pipeline, List.forall_mem_cons]
  exact ⟨.line (.scalar trivial), .line (.scalar h.multiplier), .line (.scalar h.xff),
    .line (.scalar trivial), nofun⟩

theorem laid_monitoring (c : Config) (n : Nat) : ∀ f ∈ c.monitoring, Laid n f.2 := by
  simp only [monitoring, List.forall_mem_cons]
  exact ⟨.line (.scalar trivial), nofun⟩

theorem laid_toToml (h : c.Legible) (n : Nat) : ∀ f ∈ c.toToml, Laid (n + 2) f.2 := by
  simp only [toToml, List.forall_mem_cons]
  refine ⟨.table c.nodup_pipeline (laid_pipeline h _),
    .table c.nodup_monitoring (c.laid_monitoring _), ?descriptors, nofun⟩
  case descriptors =>
    exact laid_records (fun d _ => d.nodup_fields) fun d hd => d.laid_fields (h.datasources d hd) n

theorem withPipeline_of_alike (h : Alike (.table c.pipeline) v) (c' : Config) :
    c'.withPipeline v =
      some { c' with
        counterWrap := c.counterWrap
        heartbeatMultiplier := c.heartbeatMultiplier
        xff := c.xff
        step := c.step } := by
  obtain ⟨found, hrecord, hfound⟩ := h.exists_record
    ["counter_wrap", "heartbeat_multiplier", "default_xff", "default_step"]
  have hwrap : withDefault found "counter_wrap" (fun v => v.name?.bind CounterWrap.ofName?)
      c'.counterWrap = some c.counterWrap :=
    hfound.withDefault rfl (fun _ hv => by rw [hv.name?_eq]; cases c.counterWrap <;> rfl) _
  have hmultiplier : withDefault found "heartbeat_multiplier" integerValue?
      c'.heartbeatMultiplier = some c.heartbeatMultiplier :=
    hfound.withDefault rfl (fun _ hv => hv.integerValue?_eq) _
  have hxff : withDefault found "default_xff" number? c'.xff = some c.xff :=
    hfound.withDefault rfl (fun _ hv => hv.number?_eq) _
  have hstep : withDefault found "default_step" duration? c'.step = some c.step :=
    hfound.withDefault rfl (fun _ hv => hv.duration?_eq) _
  simp only [withPipeline, hrecord, hwrap, hmultiplier, hxff, hstep, Option.bind_eq_bind,
    Option.bind_some]
  rfl

theorem withMonitoring_of_alike (h : Alike (.table c.monitoring) v) (c' : Config) :
    c'.withMonitoring v = some { c' with logLevel := c.logLevel } := by
  obtain ⟨found, hrecord, hfound⟩ := h.exists_record ["log_level"]
  have hlevel : withDefault found "log_level" string? c'.logLevel = some c.logLevel :=
    hfound.withDefault rfl (fun _ hv => hv.string?_eq) _
  simp only [withMonitoring, hrecord, hlevel, Option.bind_eq_bind, Option.bind_some]
  rfl

theorem ofToml?_of_alike {found : List (String × Toml)} (hfound : SameFields c.toToml found) :
    ofToml? found = some c := by
  have hpipeline (c' : Config) : withDefault found "pipeline" c'.withPipeline c' =
      some { c' with
        counterWrap := c.counterWrap
        heartbeatMultiplier := c.heartbeatMultiplier
        xff := c.xff
        step := c.step } :=
    hfound.withDefault rfl (fun _ hv => withPipeline_of_alike hv c') _
  have hmonitoring (c' : Config) : withDefault found "monitoring" c'.withMonitoring c' =
      some { c' with logLevel := c.logLevel } :=
    hfound.withDefault rfl (fun _ hv => withMonitoring_of_alike hv c') _
  have hdescriptors : withDefault found "descriptors" (list? DescriptorEntry.ofToml?) [] =
      some c.descriptors :=
    hfound.withDefault rfl
      (fun _ hv => list?_of_alike hv fun _ _ _ hd => DescriptorEntry.ofToml?_of_alike hd) _
  simp only [ofToml?, hpipeline, hmonitoring, hdescriptors, Option.bind_eq_bind, Option.bind_some]
  rfl

/-- Whatever restores the document of a configuration, the configuration is read back. -/
theorem read_restored {write : List (String × Toml) → String}
    {read? : String → Option (List (String × Toml))} (h : Restores write read? c.toToml) :
    (read? (write c.toToml)).bind ofToml? = some c := by
  obtain ⟨found, hread, halike⟩ := h
  obtain ⟨_, hrecord, hfound⟩ := halike.exists_record []
  obtain rfl := Option.some.inj hrecord
  rw [hread, Option.bind_some, ofToml?_of_alike hfound]

theorem restores_toToml (h : c.Legible) : Restores document Toml.parse? c.toToml :=
  restores_document c.nodup_toToml (laid_toToml h 77)

/-- The text of a configuration is read as this configuration, and so each name stands for the same
descriptor, or for none for the same reason, before and behind it. -/
theorem reloaded (h : c.Legible) :
    parse? c.text = some c ∧
      ∀ name c', parse? c.text = some c' → c'.descriptor name = c.descriptor name := by
  have hparse : parse? c.text = some c := read_restored (restores_toToml h)
  refine ⟨hparse, fun name c' hc' => ?_⟩
  rw [hparse] at hc'
  cases hc'
  rfl

/-- A descriptor that leaves its step and half of the options of its datasources to the defaults,
and one with empty lists; quotes, a line end and a control character stand in the texts. -/
theorem reloaded_mixed :
    let c : Config :=
      { counterWrap := .unknown
        xff := 0.25
        step := .ofTicks 90 .seconds
        descriptors := [
          { name := "traffic"
            step := none
            datasources := [⟨"in", "if.octets", .max, some (.ofTicks 2 .hours), none⟩,
              ⟨"out", "say \"hi\"\n", .average, none, some 0.5⟩]
            expressions := [⟨"bits", "in * 8"⟩]
            exports := ["bits", "it's\u0001"] },
          { name := "", step := some (.ofTicks 0 .days), datasources := [], expressions := [],
            exports := [] }] }
    c.Legible ∧ parse? c.text = some c ∧
      ∀ name c', parse? c.text = some c' → c'.descriptor name = c.descriptor name := by
  intro c
  have h : c.Legible := by
    refine ⟨by decide, by decide +kernel, ?_⟩
    have hhalf : Toml.Legible 0.5 := by decide +kernel
    simp [c, hhalf]
  exact ⟨h, reloaded h⟩

end Config

end Telemetry
