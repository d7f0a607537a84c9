import Telemetry.Proofs.Expression.Positions
import Telemetry.Proofs.Points.Timeline
import Telemetry.Proofs.Stages

/-!
# Calculations written as expressions

A calculation reads the row that the calculations before it have left. None of those behind it
touches what it has read or added, as all labels are different. So in the finished row a calculation
that was written as an expression shows the value of its syntax tree, where every label stands for
what the row shows under it.
-/

namespace Telemetry

/-- The second row is the first one with measurements under some labels. -/
structure Row.Extends (row up : Row Float) (labels : List String) : Prop where
  timestamp_eq : up.timestamp = row.timestamp
  resource_eq : up.resource = row.resource
  defined : labels ⊆ up.names
  kept : ∀ name ∉ labels, up.get? name = row.get? name

namespace Row.Extends

variable {row mid up : Row Float} {labels more known : List String}

theorem refl (row : Row Float) : row.Extends row [] :=
  ⟨rfl, rfl, List.nil_subset _, fun _ _ => rfl⟩

theorem insert (row : Row Float) (m : Measurement) : row.Extends (row.insert m) [m.name] := by
  refine ⟨rfl, rfl, ?_, fun name hname => ?_⟩
  · intro name hname
    obtain rfl := List.mem_singleton.1 hname
    exact mem_names_iff.2 ⟨m, get?_insert_self row m⟩
  · rw [get?_insert, if_neg fun h => hname (List.mem_singleton.2 h.symm)]

theorem subset (h : row.Extends up labels) (hknown : known ⊆ row.names) : known ⊆ up.names := by
  intro name hname
  by_cases hmem : name ∈ labels
  · exact h.defined hmem
  · rw [mem_names_iff, h.kept name hmem]
    exact exists_get? (hknown hname)

theorem trans (h : row.Extends mid labels) (h' : mid.Extends up more) :
    row.Extends up (labels ++ more) := by
  refine ⟨h'.timestamp_eq.trans h.timestamp_eq, h'.resource_eq.trans h.resource_eq, ?_, ?_⟩
  · exact List.append_subset.2 ⟨h'.subset h.defined, h'.defined⟩
  · intro name hname
    rw [List.mem_append, not_or] at hname
    rw [h'.kept name hname.2, h.kept name hname.1]

theorem valueOf_eq {name : String} (h : row.Extends up labels) (hname : name ∉ labels) :
    up.valueOf name = row.valueOf name := by
  rw [valueOf, h.kept name hname, valueOf]

end Row.Extends

namespace Calculation

variable {c : Calculation} {cs before after : List Calculation} {row : Row Float}
  {known labels : List String} {args : List Float}

/-- What a calculation adds to a row. -/
def result (c : Calculation) (row : Row Float) (args : List Float) : Measurement :=
  { timestamp := row.timestamp
    resource := row.resource
    name := c.label
    value := c.function args
    attributes := none }

theorem extend_of_arguments (h : c.arguments row = .ok args) :
    extend row c = .ok (row.insert (c.result row args)) := by
  rw [extend, h]
  rfl

/-- Operands that are labels give what the row shows under them, in their order. -/
theorem arguments_labels (hops : c.operands = labels.map .label) (h : labels ⊆ row.names) :
    c.arguments row = .ok (labels.map row.valueOf) := by
  rw [arguments, hops]
  clear hops
  induction labels with
  | nil => rfl
  | cons name rest ih =>
    obtain ⟨m, hm⟩ := Row.exists_get? (h List.mem_cons_self)
    have hrest := ih fun name hname => h (List.mem_cons_of_mem _ hname)
    simp only [List.map_cons, List.mapM_cons, hm, hrest, Row.valueOf]
    rfl

/-- The induction runs over the calculations; each finds its labels in what those before it have
made of the row. -/
theorem foldlM_extend (hrow : known ⊆ row.names) (h : InOrder known cs) :
    ∃ up, cs.foldlM extend row = .ok up ∧ row.Extends up (cs.map (·.label)) := by
  induction cs generalizing row known with
  | nil => exact ⟨row, rfl, .refl row⟩
  | cons c rest ih =>
    obtain ⟨args, hargs⟩ := arguments_of_mem fun name hname => hrow (h.1 name hname)
    have hone : row.Extends (row.insert (c.result row args)) [c.label] := .insert row _
    have hknown : known ++ [c.label] ⊆ (row.insert (c.result row args)).names :=
      List.append_subset.2 ⟨hone.subset hrow, hone.defined⟩
    obtain ⟨up, hup, hrest⟩ := ih hknown h.2
    refine ⟨up, ?_, hone.trans hrest⟩
    rw [List.foldlM_cons, extend_of_arguments hargs]
    exact hup

theorem InOrder.split (h : InOrder known (before ++ cs)) :
    InOrder known before ∧ InOrder (known ++ before.map (·.label)) cs := by
  induction before generalizing known with
  | nil => exact ⟨trivial, by simpa using h⟩
  | cons c rest ih =>
    obtain ⟨hbefore, hcs⟩ := ih h.2
    exact ⟨⟨h.1, hbefore⟩, by simpa using hcs⟩

/-- What a calculation of labels reads while the row is made is what the finished row shows: all
labels are different, so neither it nor those behind it replace what it has read, and none of them
replaces its result. -/
theorem foldlM_extend_labels (hrow : known ⊆ row.names)
    (h : InOrder known (before ++ c :: after))
    (hnodup : (known ++ (before ++ c :: after).map (·.label)).Nodup)
    (hops : c.operands = labels.map .label) :
    ∃ mid up, before.foldlM extend row = .ok mid ∧
      (before ++ c :: after).foldlM extend row = .ok up ∧
      c.arguments mid = .ok (labels.map up.valueOf) ∧
      row.Extends up ((before ++ c :: after).map (·.label)) ∧ labels ⊆ up.names ∧
      up.get? c.label = some (c.result row (labels.map up.valueOf)) := by
  obtain ⟨hbefore, hread, hafter⟩ := h.split
  obtain ⟨mid, hmid, hleft⟩ := foldlM_extend hrow hbefore
  have hknown : known ++ before.map (·.label) ⊆ mid.names :=
    List.append_subset.2 ⟨hleft.subset hrow, hleft.defined⟩
  have hlabels : labels ⊆ known ++ before.map (·.label) := fun name hname =>
    hread name (hops ▸ List.mem_map_of_mem hname)
  have hargs := arguments_labels hops (List.Subset.trans hlabels hknown)
  have hone : mid.Extends (mid.insert (c.result mid (labels.map mid.valueOf))) [c.label] :=
    .insert mid _
  obtain ⟨up, hup, hright⟩ := foldlM_extend
    (List.append_subset.2 ⟨hone.subset hknown, hone.defined⟩) hafter
  have hrest : mid.Extends up (c.label :: after.map (·.label)) := hone.trans hright
  simp only [List.map_append, List.map_cons, ← List.append_assoc] at hnodup
  obtain ⟨-, hbehind, hapart⟩ := List.nodup_append.1 hnodup
  have hkept : ∀ name ∈ labels, up.valueOf name = mid.valueOf name := fun name hname =>
    hrest.valueOf_eq fun hmem => hapart name (hlabels hname) name hmem rfl
  have hsame : labels.map up.valueOf = labels.map mid.valueOf := List.map_congr_left hkept
  have htotal := hleft.trans hrest
  refine ⟨mid, up, hmid, ?_, hsame ▸ hargs, ?_, ?_, ?_⟩
  · rw [List.foldlM_append, hmid]
    show (c :: after).foldlM extend mid = .ok up
    rw [List.foldlM_cons, extend_of_arguments hargs]
    exact hup
  · simpa using htotal
  · exact hrest.subset (List.Subset.trans hlabels hknown)
  · have hown : c.label ∉ after.map (·.label) := (List.nodup_cons.1 hbehind).1
    have hresult : c.result mid (labels.map mid.valueOf) =
        c.result row (labels.map up.valueOf) := by
      rw [result, result, hleft.timestamp_eq, hleft.resource_eq, hsame]
    rw [hright.kept c.label hown, ← hresult]
    exact Row.get?_insert_self mid _

end Calculation

namespace Draft

/-- Arguments that are labels defined before are read as such. -/
theorem mapM_operand {defined args : List String} (referrer : String) (h : args ⊆ defined) :
    args.mapM (operand defined referrer) = .ok (args.map .label) := by
  induction args with
  | nil => rfl
  | cons arg rest ih =>
    have harg : operand defined referrer arg = .ok (.label arg) := if_pos (h List.mem_cons_self)
    rw [List.mapM_cons, harg, ih fun name hname => h (List.mem_cons_of_mem _ hname)]
    rfl

theorem definitions_expression {draft : Draft} {label text : String} {e : Expression}
    (h : Expression.parse text = .ok e) :
    (draft.expression label text).definitions =
      draft.definitions ++ [.calculation label (.ok e.evaluate) e.labels] := by
  rw [expression, h]
  rfl

end Draft

/-- The calculation is the expression that a text is read as: it reads the labels of the tree, each
once and in order of first use, and its positions are theirs. -/
structure Calculation.Written (c : Calculation) (text : String) (tree : Formula) (e : Expression) :
    Prop where
  parse_eq : Expression.parse text = .ok e
  formula_eq : e.formula = tree
  labels_eq : e.labels = tree.labels
  positions_eq : e.root.positions.map (e.labels[·]?) = tree.mentions.map some
  function_eq : c.function = e.evaluate
  operands_eq : c.operands = e.labels.map .label

/-- In the finished row `up`, the calculation shows the value of its tree, each label standing for
what the row shows under it. -/
structure Calculation.Shown (c : Calculation) (d : Descriptor) (tree : Formula) (e : Expression)
    (row up : Row Float) : Prop where
  /-- The arguments, which were read when the calculations before it had been made. -/
  arguments_eq : ∃ before after mid, d.calculations = before ++ c :: after ∧
    before.foldlM extend row = .ok mid ∧ c.arguments mid = .ok (e.labels.map up.valueOf)
  /-- No position lacks an argument. -/
  taken : ∀ p ∈ e.root.positions, p < (e.labels.map up.valueOf).length
  datasources : ∀ ds ∈ d.datasources, up.get? ds.label = row.get? ds.label
  present : ∀ name ∈ tree.mentions, ∃ m, up.get? name = some m ∧ up.valueOf name = m.value
  result_eq : up.get? c.label =
    some ⟨row.timestamp, row.resource, c.label, tree.evaluate up.valueOf, none⟩

/-- A draft's expression whose labels are all defined before it becomes a calculation that reads
just these labels. -/
theorem Draft.exists_written {draft earlier : Draft} {later : List Definition} {d : Descriptor}
    {label text : String} {tree : Formula} (hd : draft.build = .ok d)
    (hdefinitions : draft.definitions = (earlier.expression label text).definitions ++ later)
    (htree : Formula.parse text.toList = .ok tree)
    (hlabels : tree.mentions ⊆ earlier.definitions.map (·.label)) :
    ∃ before c after e, d.calculations = before ++ c :: after ∧ c.label = label ∧
      c.Written text tree e := by
  let e : Expression := ⟨String.ofList (trim text.toList), tree⟩
  have he : Expression.parse text = .ok e := by
    rw [Expression.parse, htree]
    rfl
  have hsub : e.labels ⊆ earlier.definitions.map (·.label) := fun name hname =>
    hlabels (Expression.mem_labels.1 hname)
  rw [definitions_expression he, List.append_assoc, List.singleton_append] at hdefinitions
  obtain ⟨before, c, after, hcalculations, hlabel, hfunction, hoperands⟩ :=
    exists_calculation_of_build hd hdefinitions
  rw [mapM_operand label hsub] at hoperands
  exact ⟨before, c, after, e, hcalculations, hlabel, he, rfl, e.labels_eq,
    e.getElem?_positions_root, (Except.ok.inj hfunction).symm, (Except.ok.inj hoperands).symm⟩

/-- In every row that holds all datasources, an expression of a built descriptor whose labels are
defined before it shows the value of its syntax tree. -/
theorem Feed.calculated_expression {draft earlier : Draft} {later : List Definition}
    {d : Descriptor} {label text : String} {tree : Formula} (hd : draft.build = .ok d)
    (hdefinitions : draft.definitions = (earlier.expression label text).definitions ++ later)
    (htree : Formula.parse text.toList = .ok tree)
    (hlabels : tree.mentions ⊆ earlier.definitions.map (·.label)) {feed : Feed Float} {i : Nat}
    {row : Row Float} (hrow : feed[i]? = some (.ok row))
    (hnames : d.datasources.map (·.label) ⊆ row.names) :
    ∃ c e up, c ∈ d.calculations ∧ c.label = label ∧ c.Written text tree e ∧
      (feed.calculated d.calculations)[i]? = some (.ok up) ∧ c.Shown d tree e row up := by
  obtain ⟨before, c, after, e, hcalculations, hlabel, hwritten⟩ :=
    Draft.exists_written hd hdefinitions htree hlabels
  have hwf := Draft.wellFormed_of_build hd
  have horder := hwf.in_order
  have hnodup := hwf.labels_nodup
  rw [hcalculations] at horder
  rw [Descriptor.labels, hcalculations] at hnodup
  obtain ⟨mid, up, hmid, hup, hargs, hextends, hread, hresult⟩ :=
    Calculation.foldlM_extend_labels hnames horder hnodup hwritten.operands_eq
  refine ⟨c, e, up, ?_, hlabel, hwritten, ?_, ⟨before, after, mid, hcalculations, hmid, hargs⟩,
    ?_, ?_, ?_, ?_⟩
  · simp [hcalculations]
  · rw [calculated, mapRows, List.getElem?_map, hrow, hcalculations]
    exact congrArg some hup
  · intro p hp
    have hget : e.labels[p]? ∈ tree.mentions.map some :=
      hwritten.positions_eq ▸ List.mem_map_of_mem hp
    obtain ⟨name, -, hname⟩ := List.mem_map.1 hget
    rw [List.length_map]
    exact (List.getElem?_eq_some_iff.1 hname.symm).1
  · intro ds hds
    refine hextends.kept ds.label fun hmem => ?_
    exact (List.nodup_append.1 hnodup).2.2 _ (List.mem_map_of_mem hds) _ hmem rfl
  · intro name hname
    rw [← hwritten.formula_eq] at hname
    obtain ⟨m, hm⟩ := Row.exists_get? (hread (Expression.mem_labels.2 hname))
    exact ⟨m, hm, by rw [Row.valueOf, hm]; rfl⟩
  · rw [hresult, Calculation.result, hwritten.function_eq, e.evaluate_map, hwritten.formula_eq]

/-- A second datasource next to that of `Draft.load`, and an expression over both. -/
def Draft.spread : Draft :=
  (Draft.load.datasource "free" "mem" .max (some (.ofTicks 4 .seconds)) none).expression "spread"
    "max(free,load)/load"

/-- The syntax tree of the expression in `Draft.spread`. -/
def Formula.spread : Formula :=
  .binary .divide (.call .max [.label "free", .label "load"]) (.label "load")

/-- What `Draft.spread` is built into. -/
def Descriptor.spread : Descriptor :=
  { Descriptor.load with
    datasources := Descriptor.load.datasources ++
      [⟨"free", "mem", .ofTicks 4 .seconds, defaultXff, .max⟩]
    calculations := [⟨"spread", Expression.evaluate ⟨"max(free,load)/load", .spread⟩,
      [.label "free", .label "load"]⟩] }

set_option maxRecDepth 4000 in
theorem Formula.parse_spread : Formula.parse "max(free,load)/load".toList = .ok .spread := by
  with_unfolding_all rfl

theorem Draft.build_spread : Draft.spread.build = .ok .spread := by
  have he : Expression.parse "max(free,load)/load" =
      .ok ⟨String.ofList (trim "max(free,load)/load".toList), .spread⟩ := by
    rw [Expression.parse, Formula.parse_spread]
    rfl
  rw [Draft.spread, Draft.expression, he]
  rfl

/-- A load of three and five of `mem` free. -/
def Row.spread : Row Float :=
  (Row.empty .epoch "host").insertAll
    [⟨.epoch, "host", "load", 3, none⟩, ⟨.epoch, "host", "free", 5, none⟩]

theorem Feed.calculated_expression_spread :
    Draft.spread.build = .ok .spread ∧
    Draft.spread.definitions =
      ((Draft.load.datasource "free" "mem" .max (some (.ofTicks 4 .seconds)) none).expression
        "spread" "max(free,load)/load").definitions ++ [] ∧
    Formula.parse "max(free,load)/load".toList = .ok .spread ∧
    Descriptor.spread.datasources.map (·.label) ⊆ Row.spread.names ∧
    ∃ c e up, c ∈ Descriptor.spread.calculations ∧ c.label = "spread" ∧
      c.Written "max(free,load)/load" .spread e ∧
      (Feed.calculated Descriptor.spread.calculations [.ok Row.spread])[0]? = some (.ok up) ∧
      c.Shown .spread .spread e .spread up := by
  have hdefinitions : Draft.spread.definitions =
      ((Draft.load.datasource "free" "mem" .max (some (.ofTicks 4 .seconds)) none).expression
        "spread" "max(free,load)/load").definitions ++ [] := (List.append_nil _).symm
  have hlabels : Formula.spread.mentions ⊆
      (Draft.load.datasource "free" "mem" .max (some (.ofTicks 4 .seconds)) none).definitions.map
        (·.label) := by decide
  have hrow : ([.ok Row.spread] : Feed Float)[0]? = some (.ok Row.spread) := rfl
  have hnames : Descriptor.spread.datasources.map (·.label) ⊆ Row.spread.names := by decide
  exact ⟨Draft.build_spread, hdefinitions, Formula.parse_spread, hnames,
    calculated_expression Draft.build_spread hdefinitions Formula.parse_spread hlabels hrow hnames⟩

end Telemetry
