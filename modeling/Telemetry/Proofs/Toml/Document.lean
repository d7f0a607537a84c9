import Mathlib.Data.List.Nodup
import Telemetry.Proofs.Toml.Keys
import Telemetry.Proofs.Toml.Tables

/-!
# Documents read back

A document is read line by line: a header opens a table, and the pairs below it go to the table's
end. So a table is read back with the pairs of its own block first, and the tables that have blocks
of their own behind them; apart from this order, `settle`, it is the table that was written.
-/

namespace Telemetry.Toml

open TomlNode

variable {c : Char} {s s' s'' : List Char} {d d' d'' : Draft} {key : String} {path : List String}
  {fields : List (String × Toml)} {v : Toml} {n : Nat} {es whole whole' whole'' : Entries}
  {F : Entries → Entries}

/-! ## What can be laid out -/

mutual

/-- The tree that is read from the document of a tree: in each table what has blocks of its own
stands behind what has none. -/
def settle : Toml → Toml
  | table fields => .table (fields.filter (! ·.2.isBlock) ++ settleBlocks fields)
  | array items => .array (settleItems items)
  | v => v

def settleItems : List Toml → List Toml
  | [] => []
  | item :: items => item.settle :: settleItems items

/-- What has blocks of its own, each settled. -/
def settleBlocks : List (String × Toml) → List (String × Toml)
  | [] => []
  | (key, v) :: fields =>
    if v.isBlock then (key, v.settle) :: settleBlocks fields else settleBlocks fields

end

/-- The fields of a settled table. -/
def settleFields (fields : List (String × Toml)) : List (String × Toml) :=
  fields.filter (! ·.2.isBlock) ++ settleBlocks fields

/-- A value stands on a line, or is a table or an array of tables whose keys differ and that nest no
deeper than `n`. -/
inductive Laid : Nat → Toml → Prop
  | line {n : Nat} {v : Toml} (h : v.OnLine) : Laid n v
  | table {n : Nat} {fields : List (String × Toml)} (hkeys : (keys fields).Nodup)
      (h : ∀ f ∈ fields, Laid n f.2) : Laid (n + 1) (.table fields)
  | tables {n : Nat} {items : List (List (String × Toml))} (hne : items ≠ [])
      (hkeys : ∀ fields ∈ items, (keys fields).Nodup)
      (h : ∀ fields ∈ items, ∀ f ∈ fields, Laid n f.2) : Laid (n + 1) (.array (items.map .table))

theorem OnLine.isBlock (h : v.OnLine) : v.isBlock = false := by
  cases h with
  | scalar h => cases v <;> first | rfl | exact h.elim
  | @array items h =>
    cases items with
    | nil => rfl
    | cons item items =>
      have hitem := h item List.mem_cons_self
      cases item <;> first | rfl | exact hitem.elim

theorem isBlock_tables {items : List (List (String × Toml))} (hne : items ≠ []) :
    isBlock (.array (items.map .table)) = true := by
  cases items with
  | nil => exact absurd rfl hne
  | cons fields items => simp [Toml.isBlock, isTable]

theorem Laid.onLine (h : Laid n v) (hv : v.isBlock = false) : v.OnLine := by
  cases h with
  | line h => exact h
  | table => cases hv
  | tables hne => rw [isBlock_tables hne] at hv; cases hv

theorem settleItems_eq_map (items : List Toml) : settleItems items = items.map settle := by
  induction items with
  | nil => rfl
  | cons item items ih => exact congrArg (_ :: ·) ih

theorem IsScalar.settle (h : v.IsScalar) : v.settle = v := by
  cases v <;> first | rfl | exact h.elim

theorem OnLine.settle (h : v.OnLine) : v.settle = v := by
  cases h with
  | scalar h => exact h.settle
  | @array items h =>
    have hitems : items.map Toml.settle = items := by
      simpa using List.map_congr_left fun item hitem => (h item hitem).settle
    rw [Toml.settle, settleItems_eq_map, hitems]

/-- In a settled table the same values are found, settled. -/
theorem lookup_settleFields (hkeys : (keys fields).Nodup) (h : ∀ f ∈ fields, Laid n f.2)
    (key : String) : (settleFields fields).lookup key = (fields.lookup key).map settle := by
  induction fields with
  | nil => rfl
  | cons f fields ih =>
    obtain ⟨k, v⟩ := f
    obtain ⟨hk, hkeys⟩ := List.nodup_cons.1 hkeys
    have hrest := ih hkeys fun f hf => h f (List.mem_cons_of_mem _ hf)
    rw [settleFields] at hrest ⊢
    cases hv : v.isBlock with
    | false =>
      have hsettle := ((h _ List.mem_cons_self).onLine hv).settle
      rw [List.filter_cons_of_pos (by simp [hv]), settleBlocks, if_neg (by simp [hv]),
        List.cons_append, List.lookup_cons, List.lookup_cons, hrest]
      cases key == k <;> simp [hsettle]
    | true =>
      have hmissing : (fields.filter (! ·.2.isBlock)).lookup k = none :=
        lookup_eq_none fun hmem => hk ((List.filter_sublist.map _).subset hmem)
      rw [List.filter_cons_of_neg (by simp [hv]), settleBlocks, if_pos hv, List.lookup_append,
        List.lookup_cons, List.lookup_cons]
      rw [List.lookup_append] at hrest
      cases hkey : key == k with
      | true =>
        obtain rfl : key = k := by simpa using hkey
        simp [hmissing]
      | false => exact hrest

/-! ## Lines -/

/-- Reading goes on from one point of a document as it does from the other, with fuel for the text
that is left. -/
def Leads (d : Draft) (s : List Char) (d' : Draft) (s' : List Char) : Prop :=
  ∀ fuel, s.length < fuel →
    ∃ fuel', s'.length < fuel' ∧ readDocument fuel d s = readDocument fuel' d' s'

theorem Leads.refl (d : Draft) (s : List Char) : Leads d s d s :=
  fun fuel hfuel => ⟨fuel, hfuel, rfl⟩

theorem Leads.trans (h : Leads d s d' s') (h' : Leads d' s' d'' s'') : Leads d s d'' s'' := by
  intro fuel hfuel
  obtain ⟨fuel', hfuel', heq⟩ := h fuel hfuel
  obtain ⟨fuel'', hfuel'', heq'⟩ := h' fuel' hfuel'
  exact ⟨fuel'', hfuel'', heq.trans heq'⟩

theorem leads_newline (d : Draft) (s : List Char) : Leads d ('\n' :: s) d s := by
  intro fuel hfuel
  obtain ⟨n, rfl⟩ : ∃ n, fuel = n + 1 := ⟨fuel - 1, by omega⟩
  exact ⟨n, Nat.lt_of_succ_lt_succ hfuel, rfl⟩

theorem leads_statement (hc : isWhite c = false ∧ c ≠ '#' ∧ c ≠ '\n' ∧ c ≠ '\r')
    (h : readStatement d (c :: s) = some (d', s')) (hlength : s'.length ≤ s.length) :
    Leads d (c :: s) d' s' := by
  intro fuel hfuel
  obtain ⟨n, rfl⟩ : ∃ n, fuel = n + 1 := ⟨fuel - 1, by omega⟩
  refine ⟨n, lt_of_le_of_lt hlength (Nat.lt_of_succ_lt_succ hfuel), ?_⟩
  rw [readDocument, skipWhite_cons hc.1]
  split
  next heq => cases heq
  next heq => exact absurd (List.cons.inj heq).1 hc.2.1
  next => rw [readNewline_cons hc.2.2.1 hc.2.2.2, h]; rfl

theorem readLineEnd_newline (s : List Char) : readLineEnd ('\n' :: s) = some s :=
  rfl

theorem endsPath_bracket (s : List Char) : EndsPath (']' :: s) :=
  ⟨by simp; decide, by simp [skipWhite_cons (c := ']') rfl]⟩

/-- The header of a table. -/
theorem leads_table (h : Reaches path whole es F) (hkey : key ∉ keys es)
    (hlength : path.length + 1 < depthLimit) (current : List String) (s : List Char) :
    Leads ⟨whole, current⟩ ('[' :: (pathChars (path ++ [key]) ++ ']' :: '\n' :: s))
      ⟨F (es ++ [(key, .table false false [])]), path ++ [key]⟩ s := by
  refine leads_statement ⟨rfl, by decide⟩ ?_ (by simp; omega)
  have hkeys := readKeys_pathChars (endsPath_bracket ('\n' :: s)) path key hlength
  rw [skipWhite_cons (c := ']') rfl] at hkeys
  have hne : path ++ [key] ≠ [] := by simp
  obtain ⟨c, t, htext, hopen⟩ := pathChars_cons hne
  rw [readStatement, hkeys]
  · simp [readMark, readLineEnd_newline, h.openTable hkey]
  · intro rest heq
    rw [htext] at heq
    exact hopen (List.cons.inj heq).1

/-- The header of a table in an array. -/
theorem leads_item {opened : Entries} (h : openItem path key whole = some opened)
    (hlength : path.length + 1 < depthLimit) (current : List String) (s : List Char) :
    Leads ⟨whole, current⟩
      ('[' :: '[' :: (pathChars (path ++ [key]) ++ ']' :: ']' :: '\n' :: s))
      ⟨opened, path ++ [key]⟩ s := by
  refine leads_statement ⟨rfl, by decide⟩ ?_ (by simp; omega)
  have hkeys := readKeys_pathChars (endsPath_bracket (']' :: '\n' :: s)) path key hlength
  rw [skipWhite_cons (c := ']') rfl] at hkeys
  rw [readStatement, hkeys]
  simp [readMark, readLineEnd_newline, h]

/-- A pair on its line. -/
theorem leads_pair (h : Reaches path whole es F) (hkey : key ∉ keys es) (hv : v.OnLine)
    (s : List Char) :
    Leads ⟨whole, path⟩
      ((keyText key).toList ++ ' ' :: '=' :: ' ' :: (v.valueText.toList ++ '\n' :: s))
      ⟨F (es ++ [(key, .value v)]), path⟩ s := by
  obtain ⟨c, t, htext, ⟨hwhite, hcomment, hline, hreturn, -⟩, hopen, -⟩ := keyText_cons key
  obtain ⟨d, u, hvalue, ⟨hwhite', -⟩⟩ := hv.begins
  generalize hbehind : v.valueText.toList ++ '\n' :: s = behind
  have hkeys : readKeys ((keyText key).toList ++ ' ' :: '=' :: ' ' :: behind) =
      some (([], key), '=' :: ' ' :: behind) :=
    readKeys_pathChars ⟨by simp; decide, by simp [skipWhite, isWhite]⟩ [] key (by decide)
  have hskip : skipWhite (' ' :: behind) = behind := by
    rw [← hbehind, hvalue]
    exact (takeWhile_append_of_head (w := [' ']) (by simp [isWhite]) (by simpa using hwhite')).2
  have hread : readValue (behind.length + 1) depthLimit behind = some (v, '\n' :: s) := by
    rw [← hbehind]
    exact hv.readValue (endsValue_cons (.inl rfl) s) (by decide)
      (Nat.lt_succ_of_le (List.prefix_append _ _).length_le)
  rw [htext, List.cons_append] at hkeys ⊢
  refine leads_statement ⟨hwhite, hcomment, hline, hreturn⟩ ?_
    (by rw [← hbehind]; simp; omega)
  rw [readStatement, hkeys]
  · simp [readMark, hskip, hread, readLineEnd_newline, h.assign hkey]
  · exact fun _ heq => hopen (List.cons.inj heq).1
  · exact fun _ heq => hopen (List.cons.inj heq).1

/-- The line of a pair. -/
def lineChars (f : String × Toml) : List Char :=
  (keyText f.1).toList ++ ' ' :: '=' :: ' ' :: (f.2.valueText.toList ++ ['\n'])

theorem toList_lines (fields : List (String × Toml)) :
    (lines fields).toList = (fields.filter (! ·.2.isBlock)).flatMap lineChars := by
  rw [lines, String.toList_join, List.flatMap_map]
  congr 1
  funext f
  simp [lineChars]

/-- The pairs of a table on their lines. -/
theorem leads_pairs {pairs : List (String × Toml)} (hplace : Place path F)
    (h : ∀ f ∈ pairs, f.2.OnLine) (hkeys : (keys es ++ keys pairs).Nodup) (s : List Char) :
    Leads ⟨F es, path⟩ (pairs.flatMap lineChars ++ s)
      ⟨F (es ++ pairs.map fun f => (f.1, .value f.2)), path⟩ s := by
  induction pairs generalizing es with
  | nil =>
    rw [List.map_nil, List.append_nil]
    exact .refl _ _
  | cons f pairs ih =>
    obtain ⟨key, v⟩ := f
    have hkey : key ∉ keys es := by
      intro hmem
      exact (List.nodup_append.1 hkeys).2.2 key hmem key List.mem_cons_self rfl
    have hkeys' : (keys (es ++ [(key, TomlNode.value v)]) ++ keys pairs).Nodup := by
      simpa [keys] using hkeys
    have hline := leads_pair (hplace es) hkey (h _ List.mem_cons_self)
      (pairs.flatMap lineChars ++ s)
    have hrest := ih (fun f hf => h f (List.mem_cons_of_mem _ hf)) hkeys'
    have htext : ((key, v) :: pairs).flatMap lineChars ++ s = (keyText key).toList ++
        ' ' :: '=' :: ' ' :: (v.valueText.toList ++ '\n' :: (pairs.flatMap lineChars ++ s)) := by
      simp [lineChars]
    rw [htext]
    simpa using hline.trans hrest

/-! ## Blocks -/

/-- Blocks with an empty line before each. -/
def spaced (blocks : List String) : List Char :=
  blocks.flatMap fun block => '\n' :: block.toList

theorem spaced_append (blocks blocks' : List String) :
    spaced (blocks ++ blocks') = spaced blocks ++ spaced blocks' :=
  List.flatMap_append

/-- Reading a text makes one document of another, whatever stands behind it. Which table is open in
the end is left to the next header. -/
def Makes (text : List Char) (whole whole' : Entries) : Prop :=
  ∀ current s, ∃ current', Leads ⟨whole, current⟩ (text ++ s) ⟨whole', current'⟩ s

theorem Makes.nil (whole : Entries) : Makes [] whole whole :=
  fun current s => ⟨current, .refl _ s⟩

theorem Makes.append {text text' : List Char} (h : Makes text whole whole')
    (h' : Makes text' whole' whole'') : Makes (text ++ text') whole whole'' := by
  intro current s
  obtain ⟨current', hleads⟩ := h current (text' ++ s)
  obtain ⟨current'', hleads'⟩ := h' current' s
  rw [List.append_assoc]
  exact ⟨current'', hleads.trans hleads'⟩

/-- A value with blocks of its own is read to the end of any table that lacks its key. -/
def BlocksRead (n : Nat) (v : Toml) : Prop :=
  ∀ (path : List String) (key : String) (whole es : Entries) (F : Entries → Entries),
    path.length + n < depthLimit → Place path F → Reaches path whole es F → key ∉ keys es →
      v.isBlock = true → ∃ node, node.toToml = v.settle ∧
        Makes (spaced (valueBlocks (path ++ [key]) v)) whole (F (es ++ [(key, node)]))

theorem valueBlocks_eq_nil (h : v.isBlock = false) (path : List String) :
    valueBlocks path v = [] := by
  cases v with
  | table fields => cases h
  | array items => rw [valueBlocks, if_neg (by simp [h])]
  | _ => rfl

theorem fieldsToToml_values (pairs : List (String × Toml)) :
    fieldsToToml (pairs.map fun f => (f.1, .value f.2)) = pairs := by
  induction pairs with
  | nil => rfl
  | cons f pairs ih => exact congrArg (f :: ·) ih

/-- The blocks of the fields of a table. Fields that stand on lines have none, so only the keys of
the others must be new to the table. -/
theorem makes_fieldBlocks (h : ∀ f ∈ fields, BlocksRead n f.2)
    (hlength : path.length + n < depthLimit) (hplace : Place path F) (hkeys : (keys fields).Nodup)
    (hnew : ∀ f ∈ fields, f.2.isBlock = true → f.1 ∉ keys es) :
    ∃ nodes, fieldsToToml nodes = settleBlocks fields ∧
      Makes (spaced (fieldBlocks path fields)) (F es) (F (es ++ nodes)) := by
  induction fields generalizing es with
  | nil =>
    refine ⟨[], rfl, ?_⟩
    rw [List.append_nil]
    exact .nil _
  | cons f fields ih =>
    obtain ⟨key, v⟩ := f
    have hrest (f : String × Toml) (hf : f ∈ fields) := h f (List.mem_cons_of_mem _ hf)
    obtain ⟨hkey, hkeys⟩ := List.nodup_cons.1 hkeys
    rw [fieldBlocks, settleBlocks, spaced_append]
    cases hv : v.isBlock with
    | false =>
      rw [valueBlocks_eq_nil hv]
      exact ih hrest hkeys fun f hf => hnew f (List.mem_cons_of_mem _ hf)
    | true =>
      obtain ⟨node, hnode, hmakes⟩ := h _ List.mem_cons_self path key (F es) es F hlength hplace
        (hplace es) (hnew _ List.mem_cons_self hv) hv
      have hnew' : ∀ f ∈ fields, f.2.isBlock = true → f.1 ∉ keys (es ++ [(key, node)]) := by
        intro f hf hblock hmem
        rw [keys_append, List.mem_append] at hmem
        rcases hmem with hmem | hmem
        · exact hnew f (List.mem_cons_of_mem _ hf) hblock hmem
        · exact hkey (List.mem_singleton.1 hmem ▸ List.mem_map_of_mem hf)
      obtain ⟨nodes, hnodes, hmakes'⟩ := ih hrest hkeys hnew'
      refine ⟨(key, node) :: nodes, ?_, ?_⟩
      · rw [if_pos rfl, fieldsToToml, hnode, hnodes]
      · simpa using hmakes.append hmakes'

/-- Fields that can be read back into an empty table: their keys differ, and each of them either
stands on a line or has blocks that are read. -/
structure Readable (n : Nat) (fields : List (String × Toml)) : Prop where
  nodup : (keys fields).Nodup
  lines : ∀ f ∈ fields, f.2.isBlock = false → f.2.OnLine
  blocks : ∀ f ∈ fields, BlocksRead n f.2

namespace Readable

/-- The lines of a table and the blocks of its fields, below its header. -/
theorem leads (h : Readable n fields) (hlength : path.length + n < depthLimit)
    (hplace : Place path F) : ∃ nodes, fieldsToToml nodes = settleFields fields ∧
      ∀ s, ∃ current, Leads ⟨F [], path⟩
        ((Toml.lines fields).toList ++ (spaced (fieldBlocks path fields) ++ s))
        ⟨F nodes, current⟩ s := by
  have hmem {f : String × Toml} (hf : f ∈ fields.filter (! ·.2.isBlock)) :
      f ∈ fields ∧ f.2.isBlock = false := by
    simpa using List.mem_filter.1 hf
  have hown : (keys ([] : Entries) ++ keys (fields.filter (! ·.2.isBlock))).Nodup :=
    h.nodup.sublist (List.filter_sublist.map _)
  have hnew : ∀ f ∈ fields, f.2.isBlock = true →
      f.1 ∉ keys ((fields.filter (! ·.2.isBlock)).map fun f => (f.1, TomlNode.value f.2)) := by
    intro f hf hblock hkey
    obtain ⟨g, hg, hfg⟩ : ∃ g ∈ fields.filter (! ·.2.isBlock), g.1 = f.1 := by
      simpa [keys] using hkey
    obtain rfl := List.inj_on_of_nodup_map h.nodup (hmem hg).1 hf hfg
    rw [(hmem hg).2] at hblock
    cases hblock
  obtain ⟨nodes, hnodes, hmakes⟩ := makes_fieldBlocks h.blocks hlength hplace h.nodup hnew
  refine ⟨(fields.filter (! ·.2.isBlock)).map (fun f => (f.1, .value f.2)) ++ nodes, ?_,
    fun s => ?_⟩
  · rw [fieldsToToml_append, fieldsToToml_values, hnodes, settleFields]
  · obtain ⟨current, hblocks⟩ := hmakes path s
    have hlines := leads_pairs hplace
      (fun f hf => h.lines f (hmem hf).1 (hmem hf).2) hown (spaced (fieldBlocks path fields) ++ s)
    rw [toList_lines]
    exact ⟨current, hlines.trans hblocks⟩

/-- A header that opens an empty table, and what stands below it. -/
theorem makes_headed (h : Readable n fields) (hlength : path.length + n < depthLimit)
    (hplace : Place path F) (header : List Char)
    (hheader : ∀ current s, Leads ⟨whole, current⟩ (header ++ s) ⟨F [], path⟩ s) :
    ∃ nodes, fieldsToToml nodes = settleFields fields ∧
      Makes ('\n' :: (header ++ (Toml.lines fields).toList) ++ spaced (fieldBlocks path fields))
        whole (F nodes) := by
  obtain ⟨nodes, hnodes, hleads⟩ := h.leads hlength hplace
  refine ⟨nodes, hnodes, fun current s => ?_⟩
  obtain ⟨current', hcontents⟩ := hleads s
  refine ⟨current', ?_⟩
  simp only [List.cons_append, List.append_assoc]
  exact (leads_newline _ _).trans ((hheader current _).trans hcontents)

/-- A table is read from its header on, or from its first block if it has no pairs of its own. -/
theorem blocksRead_table (h : Readable n fields) : BlocksRead (n + 1) (.table fields) := by
  intro path key whole es F hlength hplace hreaches hkey _
  have hlength' : (path ++ [key]).length + n < depthLimit := by
    simp only [List.length_append, List.length_singleton]
    omega
  rw [valueBlocks, ownBlock, if_neg Bool.false_ne_true]
  split
  -- There is no header: the first block makes the table on the way to its own place, and the other
  -- blocks find it there.
  next hall =>
    simp only [Bool.and_eq_true, Bool.not_eq_true', List.all_eq_true] at hall
    cases fields with
    | nil => cases hall.1
    | cons f fields =>
      obtain ⟨key', v⟩ := f
      have hv : v.isBlock = true := hall.2 _ List.mem_cons_self
      have hplace' := hplace.table hkey true
      have hnodup := List.nodup_cons.1 h.nodup
      obtain ⟨node, hnode, hfirst⟩ := h.blocks _ List.mem_cons_self (path ++ [key]) key' whole [] _
        hlength' hplace' (hreaches.missing hkey) (by simp [keys]) hv
      have hnew : ∀ f ∈ fields, f.2.isBlock = true → f.1 ∉ keys [(key', node)] :=
        fun f hf _ hmem => hnodup.1 (List.mem_singleton.1 hmem ▸ List.mem_map_of_mem hf)
      obtain ⟨nodes, hnodes, hrest⟩ := makes_fieldBlocks
        (fun f hf => h.blocks f (List.mem_cons_of_mem _ hf)) hlength' hplace' hnodup.2 hnew
      have hfilter : ((key', v) :: fields).filter (! ·.2.isBlock) = [] := by
        simpa using hall.2
      refine ⟨.table true false ((key', node) :: nodes), ?_, ?_⟩
      · rw [TomlNode.toToml, settle, hfilter, settleBlocks, if_pos hv, fieldsToToml, hnode, hnodes]
        rfl
      · rw [List.nil_append, fieldBlocks, spaced_append]
        exact hfirst.append hrest
  next hall =>
    obtain ⟨nodes, hnodes, hmakes⟩ := h.makes_headed hlength' (hplace.table hkey false)
      ('[' :: (pathChars (path ++ [key]) ++ [']', '\n'])) fun current s => by
        simpa using leads_table hreaches hkey (by omega) current s
    refine ⟨.table false false nodes, congrArg Toml.table hnodes, ?_⟩
    have htext : spaced ["[" ++ ".".intercalate ((path ++ [key]).map keyText) ++ "]\n" ++
        Toml.lines fields] = '\n' :: ('[' :: (pathChars (path ++ [key]) ++ [']', '\n']) ++
          (Toml.lines fields).toList) := by
      simp only [spaced, List.flatMap_cons, List.flatMap_nil, String.toList_append,
        toList_intercalate_path]
      simp
    rw [spaced_append, htext]
    exact hmakes

/-- A table in an array is read from its header on. -/
theorem makes_item {earlier : List Entries} (h : Readable n fields)
    (hlength : path.length + (n + 1) < depthLimit) (hplace : Place path F) (hkey : key ∉ keys es)
    (hopen : openItem path key whole = some (F (es ++ [(key, .tables earlier [])]))) :
    ∃ nodes, fieldsToToml nodes = settleFields fields ∧
      Makes (spaced (ownBlock true (path ++ [key]) fields ++ fieldBlocks (path ++ [key]) fields))
        whole (F (es ++ [(key, .tables earlier nodes)])) := by
  have hlength' : (path ++ [key]).length + n < depthLimit := by
    simp only [List.length_append, List.length_singleton]
    omega
  obtain ⟨nodes, hnodes, hmakes⟩ := h.makes_headed hlength' (hplace.tables hkey earlier)
    ('[' :: '[' :: (pathChars (path ++ [key]) ++ [']', ']', '\n'])) fun current s => by
      simpa using leads_item hopen (by omega) current s
  refine ⟨nodes, hnodes, ?_⟩
  have htext : spaced (ownBlock true (path ++ [key]) fields) =
      '\n' :: ('[' :: '[' :: (pathChars (path ++ [key]) ++ [']', ']', '\n']) ++
        (Toml.lines fields).toList) := by
    simp only [ownBlock, if_true, spaced, List.flatMap_cons, List.flatMap_nil,
      String.toList_append, toList_intercalate_path]
    simp
  rw [spaced_append, htext]
  exact hmakes

/-- Further tables of an array are read behind the last one. -/
theorem makes_itemBlocks {items : List (List (String × Toml))}
    (h : ∀ fields ∈ items, Readable n fields) (hlength : path.length + (n + 1) < depthLimit)
    (hplace : Place path F) (hkey : key ∉ keys es) (earlier : List Entries) (last : Entries) :
    ∃ earlier' last', tablesToToml (earlier' ++ [last']) =
        tablesToToml (earlier ++ [last]) ++ items.map (fun fields => .table (settleFields fields)) ∧
      Makes (spaced (itemBlocks (path ++ [key]) (items.map .table)))
        (F (es ++ [(key, .tables earlier last)])) (F (es ++ [(key, .tables earlier' last')])) := by
  induction items generalizing earlier last with
  | nil => exact ⟨earlier, last, (List.append_nil _).symm, .nil _⟩
  | cons fields items ih =>
    obtain ⟨nodes, hnodes, hitem⟩ := (h fields List.mem_cons_self).makes_item hlength hplace hkey
      (hplace.openItem hkey earlier last)
    obtain ⟨earlier', last', htables, hitems⟩ := ih
      (fun fields hfields => h fields (List.mem_cons_of_mem _ hfields)) (earlier ++ [last]) nodes
    refine ⟨earlier', last', ?_, ?_⟩
    · rw [htables]
      simp [tablesToToml_eq_map, hnodes]
    · rw [List.map_cons, itemBlocks, spaced_append]
      exact hitem.append hitems

end Readable

theorem toToml_tables (earlier : List Entries) (last : Entries) :
    TomlNode.toToml (.tables earlier last) = .array (tablesToToml (earlier ++ [last])) := by
  simp [TomlNode.toToml, tablesToToml_eq_map]

theorem blocksRead_tables {items : List (List (String × Toml))} (hne : items ≠ [])
    (h : ∀ fields ∈ items, Readable n fields) : BlocksRead (n + 1) (.array (items.map .table)) := by
  intro path key whole es F hlength hplace hreaches hkey hblock
  rw [valueBlocks, if_pos hblock]
  cases items with
  | nil => exact absurd rfl hne
  | cons fields items =>
    obtain ⟨nodes, hnodes, hitem⟩ := (h fields List.mem_cons_self).makes_item hlength hplace hkey
      (hreaches.openItem hkey)
    obtain ⟨earlier, last, htables, hitems⟩ := Readable.makes_itemBlocks
      (fun fields hfields => h fields (List.mem_cons_of_mem _ hfields)) hlength hplace hkey [] nodes
    refine ⟨.tables earlier last, ?_, ?_⟩
    · rw [toToml_tables, htables, settle, settleItems_eq_map]
      simp [tablesToToml_eq_map, hnodes, settle, settleFields]
    · rw [List.map_cons, itemBlocks, spaced_append]
      exact hitem.append hitems

theorem blocksRead_of_onLine (h : v.OnLine) (n : Nat) : BlocksRead n v :=
  fun _ _ _ _ _ _ _ _ _ hblock => absurd (h.isBlock.symm.trans hblock) Bool.false_ne_true

theorem readable_of_laid (hkeys : (keys fields).Nodup) (h : ∀ f ∈ fields, Laid n f.2)
    (ih : ∀ f ∈ fields, BlocksRead n f.2) : Readable n fields :=
  ⟨hkeys, fun f hf => (h f hf).onLine, ih⟩

/-- The induction runs over the nesting of tables. -/
theorem Laid.blocksRead (h : Laid n v) : BlocksRead n v := by
  induction h with
  | line h => exact blocksRead_of_onLine h _
  | table hkeys h ih => exact (readable_of_laid hkeys h ih).blocksRead_table
  | tables hne hkeys h ih =>
    exact blocksRead_tables hne fun fields hfields =>
      readable_of_laid (hkeys fields hfields) (h fields hfields) (ih fields hfields)

/-! ## Documents -/

/-- Blocks with an empty line between them. -/
theorem toList_intercalate_blocks (block : String) (blocks : List String) :
    ("\n".intercalate (block :: blocks)).toList = block.toList ++ spaced blocks := by
  rw [String.toList_intercalate]
  induction blocks generalizing block with
  | nil => simp [spaced]
  | cons next blocks ih =>
    rw [List.map_cons, List.map_cons, List.intercalate_cons_cons, ← List.map_cons, ih next]
    simp [spaced]

/-- The reading of a document comes to its end. -/
def Yields (s : List Char) (es : Entries) : Prop :=
  readDocument (s.length + 1) {} s = some es

theorem Leads.yields (h : Leads {} s d' []) : Yields s d'.entries := by
  obtain ⟨fuel, hfuel, heq⟩ := h (s.length + 1) (Nat.lt_succ_self _)
  obtain ⟨m, rfl⟩ : ∃ m, fuel = m + 1 := ⟨fuel - 1, by omega⟩
  exact heq

/-- No document that is read begins with a byte order mark. -/
theorem Yields.parse? {text : String} (h : Yields text.toList es) :
    Toml.parse? text = some (fieldsToToml es) := by
  unfold Toml.parse?
  split
  next rest heq =>
    rw [heq] at h
    cases h
  next => exact congrArg (Option.map fieldsToToml) h

theorem yields_newline (h : Yields ('\n' :: s) es) : Yields s es :=
  h

/-- Blocks are read with or without an empty line before the first one. -/
theorem yields_blocks {blocks : List String} (h : Yields (spaced blocks) es) :
    Yields ("\n".intercalate blocks).toList es := by
  cases blocks with
  | nil => exact h
  | cons block blocks =>
    rw [toList_intercalate_blocks]
    exact yields_newline h

/-- The document of fields is read back as their settled table. -/
theorem parse?_document (hkeys : (keys fields).Nodup)
    (h : ∀ f ∈ fields, Laid (depthLimit - 1) f.2) :
    parse? (document fields) = some (settleFields fields) := by
  have hreadable := readable_of_laid hkeys h fun f hf => (h f hf).blocksRead
  obtain ⟨nodes, hnodes, hleads⟩ := hreadable.leads (by decide) place_root
  obtain ⟨current, hdocument⟩ := hleads []
  rw [List.append_nil] at hdocument
  have hyields : Yields (document fields).toList nodes := by
    unfold document
    dsimp only
    split
    next hall =>
      have hown : fields.filter (! ·.2.isBlock) = [] := by
        simpa using List.all_eq_true.1 hall
      rw [toList_lines, hown] at hdocument
      exact yields_blocks hdocument.yields
    next =>
      rw [List.singleton_append, toList_intercalate_blocks]
      exact hdocument.yields
  rw [hyields.parse?, hnodes]

end Telemetry.Toml
