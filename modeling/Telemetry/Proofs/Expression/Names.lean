import Telemetry.Proofs.Draft
import Telemetry.Proofs.Expression.Parsing
import Telemetry.Proofs.Expression.Positions

/-!
# What the names of an expression stand for

A name in an expression is looked up like any argument of a calculation: among the labels defined
before it, and else as the text of a number. Of the texts of numbers, names can only be the words
for what has no digits. So an expression reads labels that are defined before it, or one of these
words.
-/

namespace Telemetry

/-- A letter or an underscore with letters, digits, underscores, points and colons behind it. -/
def Token.IsName (s : List Char) : Prop :=
  ∃ c cs, s = c :: cs ∧ startsName c = true ∧ ∀ d ∈ cs, inName d = true

/-- The words that are numbers, written in any case. -/
def numberWords : List (String × Float) :=
  [("inf", infinity), ("infinity", infinity), ("nan", Float.ofBits 0x7FF8000000000000)]

/-! ## Names as texts of numbers -/

theorem Token.isSpace_of_inName {c : Char} (h : inName c = true) : isSpace c = false := by
  refine isSpace_eq_false ?_
  simp only [inName, Char.isAlphanum, Bool.or_eq_true, decide_eq_true_eq] at h
  rcases h with (((h | h) | rfl) | rfl) | rfl
  · have := toNat_of_startsName (c := c) (by simp [startsName, h])
    omega
  · have := toNat_of_isDigit h
    omega
  all_goals decide

namespace Token.IsName

variable {s : List Char}

theorem isSpace_eq_false (h : IsName s) : ∀ d ∈ s, isSpace d = false := by
  obtain ⟨c, cs, rfl, hc, hcs⟩ := h
  refine List.forall_mem_cons.2 ⟨Telemetry.isSpace_eq_false ?_, fun d hd => ?_⟩
  · have := toNat_of_startsName hc
    omega
  · exact isSpace_of_inName (hcs d hd)

theorem trim_eq (h : IsName s) : trim s = s := by
  have hdrop : ∀ t : List Char, (∀ d ∈ t, isSpace d = false) → t.dropWhile isSpace = t := by
    intro t ht
    cases t with
    | nil => rfl
    | cons d t => exact List.dropWhile_cons_of_neg (by simp [ht d List.mem_cons_self])
  have hs := h.isSpace_eq_false
  rw [trim, hdrop s hs, hdrop s.reverse fun d hd => hs d (List.mem_reverse.1 hd),
    List.reverse_reverse]

theorem splitSign_eq (h : IsName s) : DecimalLiteral.splitSign s = (false, s) := by
  obtain ⟨c, cs, rfl, hc, -⟩ := h
  have hbounds := toNat_of_startsName hc
  unfold DecimalLiteral.splitSign
  split
  · rename_i heq
    obtain ⟨rfl, -⟩ := List.cons.inj heq
    exact absurd hbounds (by decide)
  · rename_i heq
    obtain ⟨rfl, -⟩ := List.cons.inj heq
    exact absurd hbounds (by decide)
  · rfl

theorem scan_eq (h : IsName s) : DecimalLiteral.scan s = .nothing := by
  obtain ⟨c, cs, rfl, hc, -⟩ := h
  refine DecimalLiteral.scan_eq_nothing ?_ ?_
  · cases hdigit : c.isDigit with
    | false => rfl
    | true => exact absurd hc (by simp [startsName_of_number (.inl hdigit)])
  · rintro rfl
    exact absurd hc (by decide)

end Token.IsName

/-- Of the names, just the number words are texts of numbers. -/
theorem readFloat?_name_eq_some_iff {name : String} (h : Token.IsName name.toList) {x : Float} :
    readFloat? (trim name.toList) = some x ↔ (name.toLower, x) ∈ numberWords := by
  have hword : String.ofList (name.toList.map Char.toLower) = name.toLower :=
    String.map_eq_internal.symm
  rw [h.trim_eq, readFloat?, h.splitSign_eq]
  simp only [readMagnitude?, hword, h.scan_eq, numberWords]
  generalize name.toLower = word
  by_cases hinf : word = "inf"
  · simp [hinf, eq_comm]
  by_cases hinfinity : word = "infinity"
  · simp [hinfinity, eq_comm]
  by_cases hnan : word = "nan"
  · simp [hnan, eq_comm]
  simp [hinf, hinfinity, hnan]

/-! ## The names of a formula -/

namespace Expression

/-- The labels that stand in a phrase. -/
def mentionsOf : Phrase → List String
  | .expr e | .term e | .factor e | .atom e => e.mentions
  | .arguments es => Formula.mentionsAll es

theorem mentionsAll_append (es fs : List Formula) :
    Formula.mentionsAll (es ++ fs) = Formula.mentionsAll es ++ Formula.mentionsAll fs := by
  induction es with
  | nil => rfl
  | cons e es ih => simp [Formula.mentionsAll, ih]

/-- The labels of a phrase are among its tokens. -/
theorem Derives.mentions {p : Phrase} {ts : List Token} (h : Derives p ts) :
    ∀ name ∈ mentionsOf p, Token.name name.toList ∈ ts := by
  induction h with
  | term _ ih | factor _ ih | atom _ ih => exact ih
  | sum _ _ _ ihl ihr | product _ _ _ ihl ihr =>
    intro name hname
    rcases List.mem_append.1 hname with hl | hr
    · exact List.mem_append_left _ (ihl name hl)
    · exact List.mem_append_right _ (List.mem_cons_of_mem _ (ihr name hr))
  | negate _ ih => exact fun name hname => List.mem_cons_of_mem _ (ih name hname)
  | number x => exact fun name hname => nomatch hname
  | label s =>
    intro name hname
    obtain rfl := List.mem_singleton.1 hname
    simp
  | call f _ ih =>
    intro name hname
    have := ih name hname
    simp [this]
  | parens _ ih =>
    intro name hname
    have := ih name hname
    simp [this]
  | single _ ih =>
    intro name hname
    exact ih name (by simpa [mentionsOf, Formula.mentionsAll] using hname)
  | further _ _ ihs ih =>
    intro name hname
    simp only [mentionsOf, mentionsAll_append, List.mem_append] at hname
    rcases hname with hs | he
    · exact List.mem_append_left _ (ihs name hs)
    · exact List.mem_append_right _ (List.mem_cons_of_mem _
        (ih name (by simpa [mentionsOf, Formula.mentionsAll] using he)))

theorem spelled_of_mem {ts : List Token} {s : List Char} (h : Token.SpelledAll ts s) :
    ∀ t ∈ ts, ∃ w, t.Spelled w := by
  induction h with
  | nil => exact fun t ht => nomatch ht
  | blank _ _ ih => exact ih
  | token ht _ ih => exact List.forall_mem_cons.2 ⟨⟨_, ht⟩, ih⟩

/-- The labels of a formula that is read from a text are names. -/
theorem isName_of_parse {s : List Char} {e : Formula} (h : Formula.parse s = .ok e) :
    ∀ name ∈ e.mentions, Token.IsName name.toList := by
  intro name hname
  obtain ⟨ts, hspelled, hderives, -⟩ := derives_of_parse h
  obtain ⟨w, hw⟩ := spelled_of_mem hspelled _ (hderives.mentions name hname)
  revert hw
  generalize name.toList = chars
  intro hw
  cases hw with
  | name hc hcs => exact ⟨_, _, rfl, hc, hcs⟩
  | mark h => simp [Token.marks] at h

end Expression

/-! ## Expressions of a draft -/

namespace Draft

/-- What a name in an expression stands for where some labels are defined: a label that is defined
with this name, and if there is none, a number. -/
inductive Denotes (defined : List String) (name : String) : Operand → Prop
  | label (h : name ∈ defined) : Denotes defined name (.label name)
  | word {x : Float} (h : name ∉ defined) (hx : (name.toLower, x) ∈ numberWords) :
      Denotes defined name (.constant x)

section
variable {defined : List String} {name : String} {o : Operand}

theorem means_iff_denotes (h : Token.IsName name.toList) :
    Means defined name o ↔ Denotes defined name o := by
  constructor
  · rintro (hmem | ⟨hmem, hx⟩)
    · exact .label hmem
    · exact .word hmem ((readFloat?_name_eq_some_iff h).1 hx)
  · rintro (hmem | ⟨hmem, hx⟩)
    · exact .label hmem
    · exact .constant hmem ((readFloat?_name_eq_some_iff h).2 hx)

end

/-- The definition that an expression adds once its text is read. -/
theorem definitions_ofCalls_expression (before after : List Call) (label : String) {text : String}
    {tree : Formula} (hparse : Formula.parse text.toList = .ok tree) :
    ∃ function, (ofCalls (before ++ .expression label text :: after)).definitions =
      before.filterMap Call.definition? ++
        .calculation label (.ok function) tree.labels :: after.filterMap Call.definition? := by
  have hexpression : Expression.parse text =
      .ok ⟨String.ofList (trim text.toList), tree⟩ := by
    rw [Expression.parse, hparse]
    rfl
  refine ⟨Expression.evaluate ⟨String.ofList (trim text.toList), tree⟩, ?_⟩
  rw [(gathers_ofCalls _).definitions, List.filterMap_append, List.filterMap_cons]
  simp only [Call.definition?, hexpression, Expression.labels_eq]

/-- An expression reads what is defined before it. A name that nothing before it defines is read as
a number if it is one of the words for that; any other such name keeps the draft from being built,
and is what is reported unless something is at fault before it. -/
theorem build_expression {before after : List Call} {label text : String} {tree : Formula}
    (hparse : Formula.parse text.toList = .ok tree) :
    let draft := ofCalls (before ++ .expression label text :: after)
    let earlier := before.filterMap Call.definition?
    let defined := earlier.map (·.label)
    (∀ r, draft.build = .ok r → ∃ c ∈ r.calculations, c.label = label ∧
      List.Forall₂ (Denotes defined) tree.labels c.operands) ∧
    ((∃ name ∈ tree.labels, ∀ o, ¬ Denotes defined name o) → ∃ e, draft.build = .error e) ∧
    ∀ seen name rest, tree.labels = seen ++ name :: rest →
      (∀ other ∈ seen, ∃ o, Denotes defined other o) → (∀ o, ¬ Denotes defined name o) →
      0 < draft.step.nanos → draft.Accepts earlier → label ∉ defined →
      draft.build = .error (.unknownLabel name label) := by
  intro draft earlier defined
  have hname : ∀ name ∈ tree.labels, Token.IsName name.toList := fun name hmem =>
    Expression.isName_of_parse hparse name (List.mem_eraseDups.1 hmem)
  obtain ⟨function, hdefinitions⟩ := definitions_ofCalls_expression before after label hparse
  have hreads : ∀ r, draft.build = .ok r → ∃ c ∈ r.calculations, c.label = label ∧
      List.Forall₂ (Denotes defined) tree.labels c.operands := by
    intro r hr
    obtain ⟨_, c, _, hcalculations, hlabel, -, hops⟩ := exists_calculation_of_build hr hdefinitions
    refine ⟨c, by simp [hcalculations], hlabel, ?_⟩
    exact ((List.forall₂_and_left _ _).2 ⟨hname, mapM_eq_ok_iff.1 hops⟩).imp fun _ _ ⟨hn, ho⟩ =>
      (means_iff_denotes hn).1 (operand_eq_ok_iff.1 ho)
  refine ⟨hreads, ?_, ?_⟩
  · rintro ⟨name, hmem, hunknown⟩
    cases hbuild : draft.build with
    | error e => exact ⟨e, rfl⟩
    | ok r =>
      obtain ⟨c, -, -, hall⟩ := hreads r hbuild
      obtain ⟨o, -, ho⟩ := exists_of_forall₂_mem hall.flip hmem
      exact absurd ho (hunknown o)
  · intro seen name rest hsplit hseen hunknown hstep haccepts hnew
    have hnames := hsplit ▸ hname
    refine build_eq_error_iff.2 (.definition hstep hdefinitions haccepts ?_)
    rw [hsplit]
    refine .argument hnew (fun other hother => ?_) fun o ho => ?_
    · obtain ⟨o, ho⟩ := hseen other hother
      exact ⟨o, (means_iff_denotes (hnames other (by simp [hother]))).2 ho⟩
    · exact hunknown o ((means_iff_denotes (hnames name (by simp))).1 ho)

/-- A load, and what `text` makes of it. -/
def Call.total (text : String) : List Call :=
  [.datasource "load" "cpu" .average none none] ++ .expression "total" text ::
    [.exporting ["total"]]

set_option maxRecDepth 4000 in
theorem Call.parse_total :
    Formula.parse "load + inf".toList = .ok (.binary .add (.label "load") (.label "inf")) ∧
      Formula.parse "load + lost".toList = .ok (.binary .add (.label "load") (.label "lost")) := by
  constructor <;> with_unfolding_all rfl

/-- A label that is missing is reported, unless its name is a number word. -/
theorem build_expression_total :
    Formula.parse "load + inf".toList = .ok (.binary .add (.label "load") (.label "inf")) ∧
    (∃ r, (ofCalls (Call.total "load + inf")).build = .ok r ∧
      ∃ c ∈ r.calculations, c.label = "total" ∧
        List.Forall₂ (Denotes ["load"]) ["load", "inf"] c.operands ∧
        c.operands = [.label "load", .constant infinity]) ∧
    Formula.parse "load + lost".toList = .ok (.binary .add (.label "load") (.label "lost")) ∧
    (ofCalls (Call.total "load + lost")).build = .error (.unknownLabel "lost" "total") := by
  obtain ⟨hinf, hlost⟩ := Call.parse_total
  refine ⟨hinf, ?_, hlost, ?_⟩
  · have he : Expression.parse "load + inf" =
        .ok ⟨String.ofList (trim "load + inf".toList),
          .binary .add (.label "load") (.label "inf")⟩ := by
      rw [Expression.parse, hinf]
      rfl
    have hbuild : ∃ r, (ofCalls (Call.total "load + inf")).build = .ok r ∧
        r.calculations.map (·.operands) = [[.label "load", .constant infinity]] := by
      simp only [ofCalls, Call.total, List.cons_append, List.nil_append, List.foldl_cons,
        List.foldl_nil, call, expression, he]
      exact ⟨_, rfl, rfl⟩
    obtain ⟨r, hr, hoperands⟩ := hbuild
    obtain ⟨c, hc, hlabel, hall⟩ := (build_expression hinf).1 r hr
    refine ⟨r, hr, c, hc, hlabel, hall, ?_⟩
    exact List.mem_singleton.1 (hoperands ▸ List.mem_map_of_mem hc)
  · have hword : "lost".toLower = "lost" := String.map_eq_internal
    have hgathers := gathers_ofCalls (Call.total "load + lost")
    have hstep : (ofCalls (Call.total "load + lost")).step = defaultStep := hgathers.step
    have hfair : (ofCalls (Call.total "load + lost")).Fair []
        (.datasource "load" "cpu" .average none none) := by
      simp only [Fair, Option.getD_none, hgathers.step, hgathers.multiplier, hgathers.xff]
      decide
    refine (build_expression hlost).2.2 ["load"] "lost" [] rfl ?_ ?_ (hstep ▸ by decide) ?_
      (by decide)
    · intro other hother
      obtain rfl := List.mem_singleton.1 hother
      exact ⟨_, .label (List.mem_singleton_self _)⟩
    · intro o ho
      cases ho with
      | label h => exact absurd h (by decide)
      | word _ hx => simp [hword, numberWords] at hx
    · exact accepts_concat.2 ⟨accepts_nil _, List.not_mem_nil, hfair⟩

end Draft

end Telemetry
