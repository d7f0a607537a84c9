import Telemetry.Descriptor
import Telemetry.Proofs.Fallible
import Telemetry.Proofs.Mentions
import Telemetry.Proofs.Time.Range

/-!
# What a built descriptor promises

The checks of a draft leave a descriptor whose labels are all different, whose calculations read
only what stands before them, and whose exports are among its labels. The invariant of the checking,
`Draft.Progress.Valid`, is kept by every definition that is accepted.
-/

namespace Telemetry

/-- Each calculation reads only labels that are known or belong to a calculation before it. -/
def Calculation.InOrder (known : List String) : List Calculation → Prop
  | [] => True
  | c :: rest =>
    (∀ name, Operand.label name ∈ c.operands → name ∈ known) ∧ InOrder (known ++ [c.label]) rest

namespace Calculation.InOrder

variable {known more : List String} {cs : List Calculation} {c : Calculation}

theorem mono (h : InOrder known cs) (hsub : known ⊆ more) : InOrder more cs := by
  induction cs generalizing known more with
  | nil => trivial
  | cons c rest ih =>
    refine ⟨fun name hname => hsub (h.1 name hname), ih h.2 ?_⟩
    exact List.append_subset.2
      ⟨List.Subset.trans hsub (List.subset_append_left _ _), List.subset_append_right _ _⟩

theorem append (h : InOrder known cs)
    (hc : ∀ name, Operand.label name ∈ c.operands → name ∈ known ++ cs.map (·.label)) :
    InOrder known (cs ++ [c]) := by
  induction cs generalizing known with
  | nil => exact ⟨fun name hname => by simpa using hc name hname, trivial⟩
  | cons d rest ih => exact ⟨h.1, ih h.2 fun name hname => by simpa using hc name hname⟩

end Calculation.InOrder

/-- What holds of every descriptor that a draft is built into. -/
structure Descriptor.WellFormed (d : Descriptor) : Prop where
  step_pos : 0 < d.step.nanos
  labels_nodup : d.labels.Nodup
  in_order : Calculation.InOrder (d.datasources.map (·.label)) d.calculations
  exports_nodup : d.exports.Nodup
  exports_defined : d.exports ⊆ d.labels

theorem Descriptor.WellFormed.datasources_nodup {d : Descriptor} (h : d.WellFormed) :
    (d.datasources.map (·.label)).Nodup :=
  (List.nodup_append.1 h.labels_nodup).1

/-- What is asked of a datasource next to points that are one step apart. -/
structure Datasource.Admissible (ds : Datasource) (step : Duration) : Prop where
  step_le : step ≤ ds.heartbeat
  nonneg : 0 ≤ ds.xff
  le_one : ds.xff ≤ 1

/-- What is obtained from a list item by item comes from its items. -/
theorem exists_of_mem_mapM {α β ε : Type} {f : α → Except ε β} {l : List α} {l' : List β}
    (h : l.mapM f = .ok l') {y : β} (hy : y ∈ l') : ∃ x ∈ l, f x = .ok y :=
  exists_of_forall₂_mem (mapM_eq_ok_iff.1 h) hy

theorem mapM_ok_of_imp {α β ε : Type} {f g : α → Except ε β} {l : List α} {l' : List β}
    (hfg : ∀ x y, f x = .ok y → g x = .ok y) (h : l.mapM f = .ok l') : l.mapM g = .ok l' :=
  mapM_eq_ok_iff.2 ((mapM_eq_ok_iff.1 h).imp hfg)

namespace Draft

theorem mem_of_operand {defined : List String} {referrer arg name : String}
    (h : operand defined referrer arg = .ok (.label name)) : name ∈ defined := by
  unfold operand at h
  split at h
  · rename_i hmem
    cases h
    exact hmem
  · split at h <;> cases h

theorem resolve_ok {d : Draft} {label source : String} {function : Consolidation}
    {heartbeat : Option Duration} {xff : Option Float} {ds : Datasource}
    (h : d.resolve label source function heartbeat xff = .ok ds) :
    ds.label = label ∧ ds.source = source ∧ ds.function = function ∧ ds.Admissible d.step := by
  unfold resolve at h
  dsimp only at h
  split at h
  · cases h
  rename_i hheartbeat
  split at h
  · cases h
  rename_i hxff
  cases h
  simp only [Bool.not_eq_true', Bool.not_eq_false, Bool.and_eq_true, decide_eq_true_eq] at hxff
  exact ⟨rfl, rfl, rfl, Int.not_lt.1 hheartbeat, hxff.1, hxff.2⟩

/-- The labels so far, those of datasources first. -/
def Progress.labels (p : Progress) : List String :=
  p.datasources.map (·.label) ++ p.calculations.map (·.label)

structure Progress.Valid (p : Progress) : Prop where
  nodup : p.labels.Nodup
  mem_defined : ∀ label, label ∈ p.defined ↔ label ∈ p.labels
  in_order : Calculation.InOrder (p.datasources.map (·.label)) p.calculations

def Progress.withDatasource (p : Progress) (ds : Datasource) : Progress :=
  { p with datasources := p.datasources ++ [ds], defined := p.defined ++ [ds.label] }

def Progress.withCalculation (p : Progress) (c : Calculation) : Progress :=
  { p with calculations := p.calculations ++ [c], defined := p.defined ++ [c.label] }

theorem Progress.labels_withDatasource (p : Progress) (ds : Datasource) :
    (p.withDatasource ds).labels.Perm (ds.label :: p.labels) := by
  simp only [labels, withDatasource, List.map_append, List.map_cons, List.map_nil,
    List.append_assoc, List.singleton_append]
  exact List.perm_middle

theorem Progress.labels_withCalculation (p : Progress) (c : Calculation) :
    (p.withCalculation c).labels = p.labels ++ [c.label] := by
  simp [labels, withCalculation]

/-- All that an accepted definition can do: add a datasource as it is resolved, or a calculation
whose arguments mean something, under a new label. -/
theorem check_cases {d : Draft} {p p' : Progress} {definition : Definition}
    (h : d.check p definition = .ok p') :
    (∃ (ds : Datasource) (heartbeat : Option Duration) (xff : Option Float),
      definition = .datasource ds.label ds.source ds.function heartbeat xff ∧
      ds.label ∉ p.defined ∧ d.resolve ds.label ds.source ds.function heartbeat xff = .ok ds ∧
      p' = p.withDatasource ds) ∨
    (∃ (c : Calculation) (args : List String),
      definition = .calculation c.label (.ok c.function) args ∧ c.label ∉ p.defined ∧
      args.mapM (operand p.defined c.label) = .ok c.operands ∧ p' = p.withCalculation c) := by
  unfold check at h
  split at h
  · cases h
  rename_i hnew
  cases definition with
  | datasource label source function heartbeat xff =>
    left
    dsimp only at h
    obtain ⟨ds, hds, hp'⟩ := bind_eq_ok_iff.1 h
    obtain ⟨rfl, rfl, rfl, -⟩ := resolve_ok hds
    exact ⟨ds, heartbeat, xff, rfl, hnew, hds, (Except.ok.inj hp').symm⟩
  | calculation label function args =>
    right
    cases function with
    | error reason => cases h
    | ok function =>
      dsimp only at h
      split at h
      · cases h
      obtain ⟨operands, hops, hp'⟩ := bind_eq_ok_iff.1 h
      exact ⟨⟨label, function, operands⟩, args, rfl, hnew, hops, (Except.ok.inj hp').symm⟩

/-- The labels that arguments mean were defined before. -/
theorem mem_of_operands {defined : List String} {referrer name : String} {args : List String}
    {operands : List Operand} (h : args.mapM (operand defined referrer) = .ok operands)
    (hname : Operand.label name ∈ operands) : name ∈ defined := by
  obtain ⟨arg, -, harg⟩ := exists_of_mem_mapM h hname
  exact mem_of_operand harg

theorem Progress.Valid.check {d : Draft} {p p' : Progress} {definition : Definition}
    (hp : p.Valid) (h : d.check p definition = .ok p') : p'.Valid := by
  rcases check_cases h with ⟨ds, -, -, -, hnew, -, rfl⟩ | ⟨c, args, -, hnew, hops, rfl⟩
  · have hperm := p.labels_withDatasource ds
    rw [hp.mem_defined] at hnew
    refine ⟨hperm.nodup_iff.2 (List.nodup_cons.2 ⟨hnew, hp.nodup⟩), fun label => ?_,
      hp.in_order.mono (by simp [withDatasource])⟩
    rw [hperm.mem_iff]
    simp [withDatasource, hp.mem_defined, or_comm]
  · have heq := p.labels_withCalculation c
    rw [hp.mem_defined] at hnew
    refine ⟨?_, fun label => ?_, hp.in_order.append fun name hname =>
      (hp.mem_defined name).1 (mem_of_operands hops hname)⟩
    · rw [heq, ← List.concat_eq_append]
      exact hp.nodup.concat hnew
    · rw [heq]
      simp [withCalculation, hp.mem_defined]

theorem admissible_check {d : Draft} {p p' : Progress} {definition : Definition}
    (hp : ∀ ds ∈ p.datasources, ds.Admissible d.step) (h : d.check p definition = .ok p') :
    ∀ ds ∈ p'.datasources, ds.Admissible d.step := by
  rcases check_cases h with ⟨ds, _, _, -, -, hds, rfl⟩ | ⟨c, args, -, -, -, rfl⟩
  · intro ds' hds'
    rcases List.mem_append.1 hds' with hmem | hmem
    · exact hp ds' hmem
    · obtain rfl := List.mem_singleton.1 hmem
      exact (resolve_ok hds).2.2.2
  · exact hp

/-- What each accepted definition keeps, all of them keep. -/
theorem foldlM_check {d : Draft} {P : Progress → Prop} {definitions : List Definition}
    {p p' : Progress}
    (hstep : ∀ {p p' definition}, P p → d.check p definition = .ok p' → P p') (hp : P p)
    (h : definitions.foldlM d.check p = .ok p') : P p' := by
  induction definitions generalizing p with
  | nil => exact Except.ok.inj h ▸ hp
  | cons definition rest ih =>
    rw [List.foldlM_cons, bind_eq_ok_iff] at h
    obtain ⟨q, hcheck, hrest⟩ := h
    exact ih (hstep hp hcheck) hrest

theorem defined_check {d : Draft} {p p' : Progress} {definition : Definition}
    (h : d.check p definition = .ok p') : p'.defined = p.defined ++ [definition.label] := by
  rcases check_cases h with ⟨ds, -, -, rfl, -, -, rfl⟩ | ⟨c, args, rfl, -, -, rfl⟩
  · rfl
  · rfl

theorem defined_foldlM_check {d : Draft} {definitions : List Definition} {p p' : Progress}
    (h : definitions.foldlM d.check p = .ok p') :
    p'.defined = p.defined ++ definitions.map (·.label) := by
  induction definitions generalizing p with
  | nil =>
    obtain rfl := Except.ok.inj h
    simp
  | cons definition rest ih =>
    rw [List.foldlM_cons, bind_eq_ok_iff] at h
    obtain ⟨q, hcheck, hrest⟩ := h
    rw [ih hrest, defined_check hcheck, List.append_assoc, List.map_cons, List.singleton_append]

theorem calculations_check {d : Draft} {cs : List Calculation} {p p' : Progress}
    {definition : Definition} (hp : cs <+: p.calculations) (h : d.check p definition = .ok p') :
    cs <+: p'.calculations := by
  rcases check_cases h with ⟨ds, -, -, -, -, -, rfl⟩ | ⟨c, args, -, -, -, rfl⟩
  · exact hp
  · exact hp.trans (List.prefix_append _ _)

/-- A draft is built from what its definitions have given. -/
theorem build_ok {draft : Draft} {d : Descriptor} (h : draft.build = .ok d) :
    ∃ p, ¬ draft.step.isZero ∧ draft.definitions.foldlM draft.check {} = .ok p ∧
      draft.exports ⊆ p.defined ∧
      d = ⟨draft.step, p.datasources, p.calculations, draft.exports.eraseDups⟩ := by
  unfold build at h
  split at h
  · cases h
  rename_i hstep
  cases hp : draft.definitions.foldlM draft.check {} with
  | error e => rw [hp] at h; cases h
  | ok p =>
    rw [hp] at h
    cases hexports : draft.exports.find? (· ∉ p.defined) with
    | some label => simp only [bind, Except.bind, hexports] at h; cases h
    | none =>
      simp only [bind, Except.bind, hexports] at h
      cases h
      refine ⟨p, hstep, rfl, fun label hlabel => ?_, rfl⟩
      simpa using List.find?_eq_none.1 hexports label hlabel

/-- Each calculation of a draft is one of the descriptor, and its arguments mean what they mean
among the labels that were defined before it. -/
theorem exists_calculation_of_build {draft : Draft} {d : Descriptor} (h : draft.build = .ok d)
    {earlier later : List Definition} {label : String} {args : List String}
    {function : Except String (List Float → Float)}
    (hdefinitions : draft.definitions = earlier ++ .calculation label function args :: later) :
    ∃ before c after, d.calculations = before ++ c :: after ∧ c.label = label ∧
      function = .ok c.function ∧
      args.mapM (operand (earlier.map (·.label)) label) = .ok c.operands := by
  obtain ⟨p, -, hp, -, rfl⟩ := build_ok h
  rw [hdefinitions, foldlM_append_eq_ok_iff] at hp
  obtain ⟨q, hearlier, hp⟩ := hp
  rw [List.foldlM_cons, bind_eq_ok_iff] at hp
  obtain ⟨q', hcheck, hlater⟩ := hp
  have hdefined : q.defined = earlier.map (·.label) := defined_foldlM_check hearlier
  rcases check_cases hcheck with ⟨ds, heartbeat, xff, hds, -⟩ | ⟨c, args', hc, -, hops, rfl⟩
  · cases hds
  · cases hc
    obtain ⟨after, hafter⟩ := foldlM_check calculations_check List.prefix_rfl hlater
    refine ⟨q.calculations, c, after, ?_, rfl, rfl, hdefined ▸ hops⟩
    rw [← hafter, Progress.withCalculation, List.append_assoc, List.singleton_append]

theorem wellFormed_of_build {draft : Draft} {d : Descriptor} (h : draft.build = .ok d) :
    d.WellFormed := by
  obtain ⟨p, hstep, hp, hexports, rfl⟩ := build_ok h
  have hempty : Progress.Valid {} := ⟨List.nodup_nil, by simp [Progress.labels], trivial⟩
  have hvalid := foldlM_check Progress.Valid.check hempty hp
  refine ⟨Duration.nanos_pos_iff.2 hstep, hvalid.nodup, hvalid.in_order,
    nodup_eraseDups _, fun label hlabel => ?_⟩
  exact (hvalid.mem_defined label).1 (hexports (List.mem_eraseDups.1 hlabel))

theorem admissible_of_build {draft : Draft} {d : Descriptor} (h : draft.build = .ok d) :
    ∀ ds ∈ d.datasources, ds.Admissible d.step := by
  obtain ⟨p, -, hp, -, rfl⟩ := build_ok h
  exact foldlM_check admissible_check (by simp) hp

end Draft

end Telemetry
