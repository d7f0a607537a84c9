import Telemetry.Proofs.Descriptor

/-!
# Which drafts are built, and into what

A draft gathers the calls made on it. What it is built from is judged as a whole: a positive step,
labels of their own, definitions that are fair where they stand, and exports that something defines.
When it is not built, the error is that of the first definition at fault. The definitions are
followed from the left, one more at a time.
-/

namespace Telemetry

namespace Draft

/-! ## Calls -/

/-- One call on a draft: it sets a default, adds a definition, or asks for exports. -/
inductive Call
  | step (step : Duration)
  | multiplier (n : Int)
  | xff (x : Float)
  | datasource (label source : String) (function : Consolidation) (heartbeat : Option Duration)
      (xff : Option Float)
  | calculation (label : String) (function : List Float → Float) (args : List String)
  | unary (label : String) (function : Float → Float) (arg : String)
  | binary (label : String) (function : Float → Float → Float) (left right : String)
  | expression (label text : String)
  | exporting (labels : List String)

/-- What a call makes of a draft. -/
def call (d : Draft) : Call → Draft
  | .step step => { d with step }
  | .multiplier multiplier => { d with multiplier }
  | .xff xff => { d with xff }
  | .datasource label source function heartbeat xff =>
    d.datasource label source function heartbeat xff
  | .calculation label function args => d.calculation label function args
  | .unary label function arg => d.unary label function arg
  | .binary label function left right => d.binary label function left right
  | .expression label text => d.expression label text
  | .exporting labels => d.exporting labels

def ofCalls (calls : List Call) : Draft :=
  calls.foldl call {}

namespace Call

def step? : Call → Option Duration
  | .step length => some length
  | _ => none

def multiplier? : Call → Option Int
  | .multiplier n => some n
  | _ => none

def xff? : Call → Option Float
  | .xff x => some x
  | _ => none

/-- The definition that a call adds. An expression that cannot be read has its reason in place of a
function. -/
def definition? : Call → Option Definition
  | .datasource label source function heartbeat part =>
    some (.datasource label source function heartbeat part)
  | .calculation label function args => some (.calculation label (.ok function) args)
  | .unary label function arg =>
    some (.calculation label (.ok (Calculation.unary function)) [arg])
  | .binary label function left right =>
    some (.calculation label (.ok (Calculation.binary function)) [left, right])
  | .expression label text =>
    match Expression.parse text with
    | .ok e => some (.calculation label (.ok e.evaluate) e.labels)
    | .error reason => some (.calculation label (.error reason.message) [])
  | _ => none

def exports : Call → List String
  | .exporting labels => labels
  | _ => []

end Call

/-- A draft holds each default as it was set last, and definitions and exports in the order in which
they were added, wherever between them the defaults were set. -/
structure Gathers (d : Draft) (calls : List Call) : Prop where
  step : d.step = (calls.filterMap Call.step?).getLast?.getD defaultStep
  multiplier : d.multiplier = (calls.filterMap Call.multiplier?).getLast?.getD defaultMultiplier
  xff : d.xff = (calls.filterMap Call.xff?).getLast?.getD defaultXff
  definitions : d.definitions = calls.filterMap Call.definition?
  exports : d.exports = calls.flatMap Call.exports

theorem Gathers.call {d : Draft} {calls : List Call} (h : d.Gathers calls) (c : Call) :
    (d.call c).Gathers (calls ++ [c]) := by
  obtain ⟨hstep, hmultiplier, hxff, hdefinitions, hexports⟩ := h
  cases c with
  | expression label text =>
    cases hparse : Expression.parse text <;>
      constructor <;> simp [Draft.call, expression, calculation, define, Call.step?,
        Call.multiplier?, Call.xff?, Call.definition?, Call.exports, *]
  | _ =>
    constructor <;> simp [Draft.call, datasource, calculation, unary, binary, exporting, define,
      Call.step?, Call.multiplier?, Call.xff?, Call.definition?, Call.exports, *]

theorem gathers_ofCalls (calls : List Call) : (ofCalls calls).Gathers calls := by
  induction calls using List.reverseRecOn with
  | nil => exact ⟨rfl, rfl, rfl, rfl, rfl⟩
  | append_singleton calls c ih =>
    rw [ofCalls, List.foldl_concat]
    exact ih.call c

/-! ## One definition -/

/-- What an argument means where some labels are defined: one of these, or else the number that it
spells. -/
inductive Means (defined : List String) (arg : String) : Operand → Prop
  | label (h : arg ∈ defined) : Means defined arg (.label arg)
  | constant {x : Float} (h : arg ∉ defined) (hx : readFloat? (trim arg.toList) = some x) :
      Means defined arg (.constant x)

section
variable {defined : List String} {referrer arg : String} {o : Operand}

theorem operand_eq_ok_iff : operand defined referrer arg = .ok o ↔ Means defined arg o := by
  unfold operand
  constructor
  · intro h
    split at h
    · rename_i hmem
      cases h
      exact .label hmem
    · rename_i hmem
      split at h
      · rename_i hx
        cases h
        exact .constant hmem hx
      · cases h
  · rintro (hmem | ⟨hmem, hx⟩)
    · rw [if_pos hmem]
    · rw [if_neg hmem, hx]

theorem operand_of_unknown (h : ∀ o, ¬ Means defined arg o) :
    operand defined referrer arg = .error (.unknownLabel arg referrer) := by
  unfold operand
  split
  · rename_i hmem
    exact absurd (.label hmem) (h _)
  · rename_i hmem
    split
    · rename_i hx
      exact absurd (.constant hmem hx) (h _)
    · rfl

end

/-- What is asked of a definition where some labels are defined, besides a label of its own. -/
def Fair (d : Draft) (defined : List String) : Definition → Prop
  | .datasource _ _ _ heartbeat xff =>
    d.step ≤ heartbeat.getD (d.step.scale d.multiplier) ∧ 0 ≤ xff.getD d.xff ∧ xff.getD d.xff ≤ 1
  | .calculation _ function args =>
    (∃ f, function = .ok f) ∧ args ≠ [] ∧ ∀ arg ∈ args, ∃ o, Means defined arg o

/-- What is reported of a definition at fault. One with several faults is reported for that which
stands first here. -/
inductive Flaw (d : Draft) (defined : List String) : Definition → DescriptorError → Prop
  | duplicate {x : Definition} (h : x.label ∈ defined) :
      Flaw d defined x (.duplicateLabel x.label)
  | heartbeat {label source function heartbeat xff} (hnew : label ∉ defined)
      (h : heartbeat.getD (d.step.scale d.multiplier) < d.step) :
      Flaw d defined (.datasource label source function heartbeat xff)
        (.heartbeatTooShort label (heartbeat.getD (d.step.scale d.multiplier)).text d.step.text)
  | xff {label source function heartbeat xff} (hnew : label ∉ defined)
      (hheartbeat : d.step ≤ heartbeat.getD (d.step.scale d.multiplier))
      (h : ¬ (0 ≤ xff.getD d.xff ∧ xff.getD d.xff ≤ 1)) :
      Flaw d defined (.datasource label source function heartbeat xff)
        (.invalidXff label (xff.getD d.xff))
  | unread {label reason args} (hnew : label ∉ defined) :
      Flaw d defined (.calculation label (.error reason) args) (.invalidExpression label reason)
  | noArguments {label f} (hnew : label ∉ defined) :
      Flaw d defined (.calculation label (.ok f) []) (.noArguments label)
  | argument {label f before arg after} (hnew : label ∉ defined)
      (hbefore : ∀ a ∈ before, ∃ o, Means defined a o) (h : ∀ o, ¬ Means defined arg o) :
      Flaw d defined (.calculation label (.ok f) (before ++ arg :: after))
        (.unknownLabel arg label)

section
variable {d : Draft} {p p' : Progress} {definition : Definition} {e : DescriptorError}

/-- Something fails to have a property in a list only if a first item does. -/
theorem forall_mem_or_first {α : Type} (P : α → Prop) (l : List α) :
    (∀ a ∈ l, P a) ∨
      ∃ before x after, l = before ++ x :: after ∧ (∀ a ∈ before, P a) ∧ ¬ P x := by
  induction l with
  | nil => exact .inl (by simp)
  | cons a as ih =>
    by_cases ha : P a
    · rcases ih with hall | ⟨before, x, after, rfl, hbefore, hx⟩
      · exact .inl (List.forall_mem_cons.2 ⟨ha, hall⟩)
      · exact .inr ⟨a :: before, x, after, rfl, List.forall_mem_cons.2 ⟨ha, hbefore⟩, hx⟩
    · exact .inr ⟨[], a, as, rfl, by simp, ha⟩

/-- A definition is fair under a label of its own, or something is reported of it. -/
theorem fair_or_flaw (d : Draft) (defined : List String) (definition : Definition) :
    (definition.label ∉ defined ∧ d.Fair defined definition) ∨
      ∃ e, d.Flaw defined definition e := by
  by_cases hnew : definition.label ∈ defined
  · exact .inr ⟨_, .duplicate hnew⟩
  cases definition with
  | datasource label source function heartbeat xff =>
    by_cases hheartbeat : heartbeat.getD (d.step.scale d.multiplier) < d.step
    · exact .inr ⟨_, .heartbeat hnew hheartbeat⟩
    by_cases hxff : 0 ≤ xff.getD d.xff ∧ xff.getD d.xff ≤ 1
    · exact .inl ⟨hnew, Int.not_lt.1 hheartbeat, hxff⟩
    · exact .inr ⟨_, .xff hnew (Int.not_lt.1 hheartbeat) hxff⟩
  | calculation label function args =>
    cases function with
    | error reason => exact .inr ⟨_, .unread hnew⟩
    | ok f =>
      cases args with
      | nil => exact .inr ⟨_, .noArguments hnew⟩
      | cons arg args =>
        rcases forall_mem_or_first (fun arg => ∃ o, Means defined arg o) (arg :: args) with
          hall | ⟨before, x, after, heq, hbefore, hx⟩
        · exact .inl ⟨hnew, ⟨f, rfl⟩, List.cons_ne_nil _ _, hall⟩
        · exact heq ▸ .inr ⟨_, .argument hnew hbefore (not_exists.1 hx)⟩

theorem check_of_fair (hnew : definition.label ∉ p.defined)
    (hfair : d.Fair p.defined definition) : ∃ p', d.check p definition = .ok p' := by
  cases definition with
  | datasource label source function heartbeat xff =>
    obtain ⟨hheartbeat, hxff⟩ := hfair
    have hlt : ¬ heartbeat.getD (d.step.scale d.multiplier) < d.step := Int.not_lt.2 hheartbeat
    exact ⟨_, by simp [check, hnew, resolve, hlt, hxff]; rfl⟩
  | calculation label function args =>
    obtain ⟨⟨f, rfl⟩, hargs, hall⟩ := hfair
    have hoperands : ∃ operands, args.mapM (operand p.defined label) = .ok operands := by
      cases h : args.mapM (operand p.defined label) with
      | ok operands => exact ⟨operands, rfl⟩
      | error e =>
        obtain ⟨before, x, after, rfl, -, hx⟩ := mapM_eq_error_iff.1 h
        obtain ⟨o, ho⟩ := hall x (by simp)
        rw [operand_eq_ok_iff.2 ho] at hx
        cases hx
    obtain ⟨operands, hoperands⟩ := hoperands
    exact ⟨_, by simp [check, hnew, hargs, hoperands]; rfl⟩

theorem check_of_flaw (h : d.Flaw p.defined definition e) : d.check p definition = .error e := by
  cases h with
  | duplicate hmem => exact if_pos hmem
  | heartbeat hnew hheartbeat => simp [check, Definition.label, hnew, resolve, hheartbeat]
  | @xff label source function heartbeat xff hnew hheartbeat hxff =>
    have hlt : ¬ heartbeat.getD (d.step.scale d.multiplier) < d.step := Int.not_lt.2 hheartbeat
    have hrange : ¬ (0 ≤ xff.getD d.xff && xff.getD d.xff ≤ 1) = true := by simpa using hxff
    have hresolve : d.resolve label source function heartbeat xff =
        .error (.invalidXff label (xff.getD d.xff)) := by
      simp only [resolve, if_neg hlt, hrange]
      rfl
    exact (if_neg hnew).trans (bind_eq_error_iff.2 (.inl hresolve))
  | unread hnew => exact if_neg hnew
  | noArguments hnew => exact if_neg hnew
  | @argument label f before arg after hnew hbefore harg =>
    have hoperands : (before ++ arg :: after).mapM (operand p.defined label) =
        .error (.unknownLabel arg label) := by
      refine mapM_eq_error_iff.2 ⟨before, arg, after, rfl, fun a ha => ?_, operand_of_unknown harg⟩
      obtain ⟨o, ho⟩ := hbefore a ha
      exact ⟨o, operand_eq_ok_iff.2 ho⟩
    refine (if_neg hnew).trans ?_
    have hne : ¬ (before ++ arg :: after).isEmpty := by simp
    dsimp only
    rw [if_neg hne]
    exact bind_eq_error_iff.2 (.inl hoperands)

theorem exists_check_iff :
    (∃ p', d.check p definition = .ok p') ↔
      definition.label ∉ p.defined ∧ d.Fair p.defined definition := by
  refine ⟨fun ⟨p', h⟩ => ?_, fun ⟨hnew, hfair⟩ => check_of_fair hnew hfair⟩
  rcases fair_or_flaw d p.defined definition with hfair | ⟨e, hflaw⟩
  · exact hfair
  · rw [check_of_flaw hflaw] at h
    cases h

theorem check_eq_error_iff : d.check p definition = .error e ↔ d.Flaw p.defined definition e := by
  refine ⟨fun h => ?_, check_of_flaw⟩
  rcases fair_or_flaw d p.defined definition with ⟨hnew, hfair⟩ | ⟨e', hflaw⟩
  · obtain ⟨p', hp'⟩ := check_of_fair hnew hfair
    rw [hp'] at h
    cases h
  · obtain rfl := Except.error.inj ((check_of_flaw hflaw).symm.trans h)
    exact hflaw

end

/-! ## All definitions -/

/-- Definitions that can stand together in this order. -/
structure Accepts (d : Draft) (definitions : List Definition) : Prop where
  labels_nodup : (definitions.map (·.label)).Nodup
  fair : ∀ earlier definition later, definitions = earlier ++ definition :: later →
    d.Fair (earlier.map (·.label)) definition

section
variable {d : Draft} {definitions : List Definition}

theorem accepts_nil (d : Draft) : d.Accepts [] :=
  ⟨List.nodup_nil, by simp⟩

theorem accepts_concat {definition : Definition} :
    d.Accepts (definitions ++ [definition]) ↔
      d.Accepts definitions ∧ definition.label ∉ definitions.map (·.label) ∧
        d.Fair (definitions.map (·.label)) definition := by
  constructor
  · rintro ⟨hnodup, hfair⟩
    rw [List.map_append, List.map_singleton, List.nodup_append] at hnodup
    refine ⟨⟨hnodup.1, fun earlier x later h => ?_⟩, fun hmem => ?_, ?_⟩
    · exact hfair earlier x (later ++ [definition]) (by simp [h])
    · exact hnodup.2.2 _ hmem _ (List.mem_singleton_self _) rfl
    · exact hfair definitions definition [] rfl
  · rintro ⟨haccepts, hnew, hfair⟩
    refine ⟨?_, fun earlier x later h => ?_⟩
    · rw [List.map_append, List.map_singleton, ← List.concat_eq_append]
      exact haccepts.labels_nodup.concat hnew
    · rcases List.eq_nil_or_concat later with rfl | ⟨later, y, rfl⟩
      · obtain ⟨rfl, hx⟩ := List.append_inj' h rfl
        obtain rfl := List.singleton_inj.1 hx
        exact hfair
      · have h' : definitions ++ [definition] = (earlier ++ x :: later) ++ [y] := by simp [h]
        exact haccepts.fair earlier x later (List.append_inj_left' h' rfl)

/-- Definitions are followed to their end if they can stand together. -/
theorem exists_foldlM_check_iff :
    (∃ p, definitions.foldlM d.check {} = .ok p) ↔ d.Accepts definitions := by
  induction definitions using List.reverseRecOn with
  | nil => exact ⟨fun _ => accepts_nil d, fun _ => ⟨{}, rfl⟩⟩
  | append_singleton definitions definition ih =>
    rw [accepts_concat, ← ih]
    constructor
    · rintro ⟨p', hp'⟩
      obtain ⟨p, hp, hcheck⟩ := foldlM_concat_eq_ok_iff.1 hp'
      have hdefined : p.defined = definitions.map (·.label) := defined_foldlM_check hp
      exact ⟨⟨p, hp⟩, hdefined ▸ exists_check_iff.1 ⟨p', hcheck⟩⟩
    · rintro ⟨⟨p, hp⟩, hfair⟩
      have hdefined : p.defined = definitions.map (·.label) := defined_foldlM_check hp
      obtain ⟨p', hp'⟩ := exists_check_iff.2 (hdefined ▸ hfair)
      exact ⟨p', foldlM_concat_eq_ok_iff.2 ⟨p, hp, hp'⟩⟩

/-- The error is that of the first definition at fault. -/
theorem foldlM_check_eq_error_iff {e : DescriptorError} :
    definitions.foldlM d.check {} = .error e ↔
      ∃ earlier definition later, definitions = earlier ++ definition :: later ∧
        d.Accepts earlier ∧ d.Flaw (earlier.map (·.label)) definition e := by
  rw [foldlM_eq_error_iff]
  constructor
  · rintro ⟨earlier, definition, later, p, heq, hp, he⟩
    have hdefined : p.defined = earlier.map (·.label) := defined_foldlM_check hp
    exact ⟨earlier, definition, later, heq, exists_foldlM_check_iff.1 ⟨p, hp⟩,
      hdefined ▸ check_eq_error_iff.1 he⟩
  · rintro ⟨earlier, definition, later, heq, haccepts, hflaw⟩
    obtain ⟨p, hp⟩ := exists_foldlM_check_iff.2 haccepts
    have hdefined : p.defined = earlier.map (·.label) := defined_foldlM_check hp
    exact ⟨earlier, definition, later, p, heq, hp, check_eq_error_iff.2 (hdefined ▸ hflaw)⟩

end

/-- What definitions give one after the other where some labels are defined before them. -/
inductive Gives (d : Draft) :
    List String → List Definition → List Datasource → List Calculation → Prop
  | nil {defined : List String} : Gives d defined [] [] []
  | datasource {defined definitions datasources calculations label source function heartbeat xff}
      (rest : Gives d (defined ++ [label]) definitions datasources calculations) :
      Gives d defined (.datasource label source function heartbeat xff :: definitions)
        ({ label := label
           source := source
           heartbeat := heartbeat.getD (d.step.scale d.multiplier)
           xff := xff.getD d.xff
           function := function } :: datasources) calculations
  | calculation {defined definitions datasources calculations label function args operands}
      (hoperands : List.Forall₂ (Means defined) args operands)
      (rest : Gives d (defined ++ [label]) definitions datasources calculations) :
      Gives d defined (.calculation label (.ok function) args :: definitions)
        datasources (⟨label, function, operands⟩ :: calculations)

theorem eq_of_resolve {d : Draft} {label source : String} {function : Consolidation}
    {heartbeat : Option Duration} {xff : Option Float} {ds : Datasource}
    (h : d.resolve label source function heartbeat xff = .ok ds) :
    ds = ⟨label, source, heartbeat.getD (d.step.scale d.multiplier), xff.getD d.xff, function⟩ := by
  unfold resolve at h
  dsimp only at h
  split at h
  · cases h
  split at h
  · cases h
  exact (Except.ok.inj h).symm

theorem Gives.of_foldlM_check {d : Draft} {definitions : List Definition} {p p' : Progress}
    (h : definitions.foldlM d.check p = .ok p') :
    ∃ datasources calculations, d.Gives p.defined definitions datasources calculations ∧
      p'.datasources = p.datasources ++ datasources ∧
      p'.calculations = p.calculations ++ calculations := by
  induction definitions generalizing p with
  | nil =>
    obtain rfl := Except.ok.inj h
    exact ⟨[], [], .nil, by simp, by simp⟩
  | cons definition rest ih =>
    rw [List.foldlM_cons, bind_eq_ok_iff] at h
    obtain ⟨q, hcheck, hrest⟩ := h
    obtain ⟨datasources, calculations, hgives, hdatasources, hcalculations⟩ := ih hrest
    rw [defined_check hcheck] at hgives
    rcases check_cases hcheck with
      ⟨ds, heartbeat, xff, rfl, -, hds, rfl⟩ | ⟨c, args, rfl, -, hops, rfl⟩
    · refine ⟨ds :: datasources, calculations, ?_, ?_, hcalculations⟩
      · rw [eq_of_resolve hds]
        exact .datasource hgives
      · rw [hdatasources, Progress.withDatasource, List.append_assoc, List.singleton_append]
    · exact ⟨datasources, c :: calculations, .calculation
        ((mapM_eq_ok_iff.1 hops).imp fun _ _ => operand_eq_ok_iff.1) hgives, hdatasources,
        by rw [hcalculations, Progress.withCalculation, List.append_assoc]; rfl⟩

/-! ## The whole draft -/

/-- A draft that can be built. -/
structure Sound (d : Draft) : Prop where
  step_pos : 0 < d.step.nanos
  accepts : d.Accepts d.definitions
  exports_defined : d.exports ⊆ d.definitions.map (·.label)

/-- What is reported of a draft that cannot be built. -/
inductive Reports (d : Draft) : DescriptorError → Prop
  | zeroStep (h : d.step.nanos = 0) : Reports d .zeroStep
  | definition {earlier definition later e} (hstep : 0 < d.step.nanos)
      (heq : d.definitions = earlier ++ definition :: later) (hearlier : d.Accepts earlier)
      (h : d.Flaw (earlier.map (·.label)) definition e) : Reports d e
  | exported {earlier label later} (hstep : 0 < d.step.nanos) (haccepts : d.Accepts d.definitions)
      (heq : d.exports = earlier ++ label :: later)
      (hearlier : earlier ⊆ d.definitions.map (·.label))
      (h : label ∉ d.definitions.map (·.label)) : Reports d (.unknownLabel label "export")

/-- What a draft means as a descriptor. -/
structure Frozen (d : Draft) (r : Descriptor) : Prop where
  step_eq : r.step = d.step
  gives : d.Gives [] d.definitions r.datasources r.calculations
  exports : FirstMentions d.exports r.exports
  sources : FirstMentions (r.datasources.map (·.source)) r.sources
  wellFormed : r.WellFormed

section
variable {d : Draft}

theorem exists_build_iff : (∃ r, d.build = .ok r) ↔ d.Sound := by
  constructor
  · rintro ⟨r, hr⟩
    obtain ⟨p, hstep, hp, hexports, -⟩ := build_ok hr
    have hdefined : p.defined = d.definitions.map (·.label) := defined_foldlM_check hp
    exact ⟨Duration.nanos_pos_iff.2 hstep, exists_foldlM_check_iff.1 ⟨p, hp⟩, hdefined ▸ hexports⟩
  · rintro ⟨hstep, haccepts, hexports⟩
    obtain ⟨p, hp⟩ := exists_foldlM_check_iff.2 haccepts
    have hdefined : p.defined = d.definitions.map (·.label) := defined_foldlM_check hp
    have hfind : d.exports.find? (· ∉ p.defined) = none := by
      refine List.find?_eq_none.2 fun label hlabel => ?_
      simpa [hdefined] using hexports hlabel
    rw [build, if_neg (Duration.nanos_pos_iff.1 hstep)]
    exact ⟨_, bind_eq_ok_iff.2 ⟨p, hp, by rw [hfind]; rfl⟩⟩

theorem build_eq_error_iff {e : DescriptorError} : d.build = .error e ↔ d.Reports e := by
  constructor
  · intro h
    unfold build at h
    split at h
    · rename_i hzero
      cases h
      exact .zeroStep (Duration.isZero_iff.1 hzero)
    rename_i hstep
    rcases bind_eq_error_iff.1 h with hdefinitions | ⟨p, hp, hexports⟩
    · obtain ⟨earlier, definition, later, heq, haccepts, hflaw⟩ :=
        foldlM_check_eq_error_iff.1 hdefinitions
      exact .definition (Duration.nanos_pos_iff.2 hstep) heq haccepts hflaw
    · have hdefined : p.defined = d.definitions.map (·.label) := defined_foldlM_check hp
      split at hexports
      · rename_i label hfind
        obtain ⟨hlabel, earlier, later, heq, hearlier⟩ := List.find?_eq_some_iff_append.1 hfind
        cases hexports
        refine .exported (Duration.nanos_pos_iff.2 hstep) (exists_foldlM_check_iff.1 ⟨p, hp⟩) heq
          ?_ ?_
        · intro a ha
          simpa [hdefined] using hearlier a ha
        · simpa [hdefined] using hlabel
      · cases hexports
  · intro h
    cases h with
    | zeroStep hzero => exact if_pos (Duration.isZero_iff.2 hzero)
    | definition hstep heq hearlier hflaw =>
      rw [build, if_neg (Duration.nanos_pos_iff.1 hstep)]
      exact bind_eq_error_iff.2
        (.inl (foldlM_check_eq_error_iff.2 ⟨_, _, _, heq, hearlier, hflaw⟩))
    | @exported earlier label later hstep haccepts heq hearlier hlabel =>
      obtain ⟨p, hp⟩ := exists_foldlM_check_iff.2 haccepts
      have hdefined : p.defined = d.definitions.map (·.label) := defined_foldlM_check hp
      have hfind : d.exports.find? (· ∉ p.defined) = some label := by
        refine List.find?_eq_some_iff_append.2 ⟨?_, _, _, heq, fun a ha => ?_⟩
        · simpa [hdefined] using hlabel
        · simpa [hdefined] using hearlier ha
      rw [build, if_neg (Duration.nanos_pos_iff.1 hstep)]
      exact bind_eq_error_iff.2 (.inr ⟨p, hp, by rw [hfind]⟩)

theorem frozen_of_build {r : Descriptor} (h : d.build = .ok r) : d.Frozen r := by
  have hwellFormed := wellFormed_of_build h
  obtain ⟨p, -, hp, -, rfl⟩ := build_ok h
  obtain ⟨datasources, calculations, hgives, hdatasources, hcalculations⟩ :=
    Gives.of_foldlM_check hp
  exact ⟨rfl, by rw [hdatasources, hcalculations]; exact hgives, .eraseDups _, .eraseDups _,
    hwellFormed⟩

end

/-- Whatever calls are made, what they gather is built if and only if it is sound as a whole; else
what is reported is a step of length zero, the first definition at fault, or the first export that
nothing defines. What is built means what was gathered. -/
theorem build_ofCalls (calls : List Call) :
    (ofCalls calls).Gathers calls ∧
    ((∃ r, (ofCalls calls).build = .ok r) ↔ (ofCalls calls).Sound) ∧
    (∀ e, (ofCalls calls).build = .error e ↔ (ofCalls calls).Reports e) ∧
    ∀ r, (ofCalls calls).build = .ok r → (ofCalls calls).Frozen r :=
  ⟨gathers_ofCalls calls, exists_build_iff, fun _ => build_eq_error_iff,
    fun _ => frozen_of_build⟩

/-- The step is set after the datasource that depends on it, and a label is exported twice. -/
def Call.twice : List Call :=
  [.datasource "load" "cpu" .average none none, .step (.ofTicks 1 .seconds),
    .binary "twice" (· * ·) "load" " 2 ", .exporting ["twice", "load"], .multiplier 3,
    .exporting ["twice"]]

theorem build_ofCalls_twice :
    ∃ r, (ofCalls Call.twice).build = .ok r ∧
      r.datasources = [⟨"load", "cpu", .ofTicks 3 .seconds, defaultXff, .average⟩] ∧
      r.calculations.map (·.operands) = [[.label "load", .constant 2]] ∧
      r.exports = ["twice", "load"] ∧
      (ofCalls Call.twice).Sound ∧ (ofCalls Call.twice).Frozen r := by
  obtain ⟨-, hsound, -, hfrozen⟩ := build_ofCalls Call.twice
  have hbuild : (ofCalls Call.twice).build = .ok
      { step := .ofTicks 1 .seconds
        datasources := [⟨"load", "cpu", .ofTicks 3 .seconds, defaultXff, .average⟩]
        calculations := [⟨"twice", Calculation.binary (· * ·), [.label "load", .constant 2]⟩]
        exports := ["twice", "load"] } := rfl
  exact ⟨_, hbuild, rfl, rfl, rfl, hsound.1 ⟨_, hbuild⟩, hfrozen _ hbuild⟩

end Draft

end Telemetry
