import Netmt.MgrCalls
import Netmt.IniConf

/-!
# Enumerated values

`iniconfopt.cpp`: a section's enumerated values are the nodes of a chain, and each
node stores an index of its own. The chains of all sections lie in one store. `none`
stands for a run that does not come to its end, for a section name that does not fit
`strSection`, and for a value that does not begin with a word of at most 127 bytes:
`strValue` of `SetEnumValue` is left as it is, or overflows, for any other.
-/
namespace NetmtEnumIndex

open Links NetmtTDChain NetmtMgrCalls NetmtIniStr
open NetmtIniConf (CRecord newComment ruleComment pushChain)

structure CEnumValue where
  index : Int
  value : List UInt8
  deriving DecidableEq, Repr

/-- `CTDChainMgr<CEnumValue *, 0, CtEM_REJECT, 1>` -/
def enumChain : Params CEnumValue where
  sort := false
  equal := .CtEM_REJECT
  pointer := true
  gt a b := decide (b.value < a.value)
  eq a b := decide (a.value = b.value)
  above _ _ := false

/-! ## Sections -/

structure CSection where
  name : List UInt8
  records : List CRecord
  enums : CTDChainMgr
  /-- `m_nEnumValueMaxWidth` -/
  maxWidth : Nat
  /-- `m_nEnumValueColumn` -/
  column : Int
  comment : List (List UInt8)
  deriving DecidableEq

/-- `CSection(section, column)` -/
def newSection (name : List UInt8) (column : Int) : CSection := ⟨name, [], .null, 10, column, []⟩

/-- The cursor is on the node of what is found. -/
def searchEnumValue (index : Int) (s : Store CEnumValue) (m : CTDChainMgr) :
    Option (Option CEnumValue × CTDChainMgr) :=
  if index ≥ m.nodeNum then some (none, m) else searchItems (fun v => decide (v.index = index)) s m

/-- `CEnumValue::SetValue`, on the value that the cursor is on. -/
def setCursorValue (index : Int) (value : List UInt8) (s : Store CEnumValue) (m : CTDChainMgr) :
    Option (Store CEnumValue) :=
  m.nodeCurr.bind fun p => (read s.heap p).map fun n =>
    if n.item.index = index then
      { s with heap := write p { n with item := { n.item with value := value } } s.heap }
    else s

/-- `CSection::SetEnumValue(section, index, value)` -/
def CSection.setEnumValueAt (name : List UInt8) (index : Int) (value : List UInt8)
    (s : Store CEnumValue) (sec : CSection) : Option (Store CEnumValue × CSection) :=
  if sec.name ≠ name then some (s, sec)
  else
    (searchEnumValue index s sec.enums).bind fun r =>
      let sec := { sec with maxWidth := max sec.maxWidth value.length, enums := r.2 }
      match r.1 with
      | some _ => (setCursorValue index value s sec.enums).map fun s => (s, sec)
      | none => (sec.enums.push enumChain ⟨index, value⟩ s).map fun r =>
        (r.2.1, { sec with enums := r.2.2 })

/-- `CSection::SetEnumValue(section, value)` -/
def CSection.setEnumValue (name value : List UInt8) (s : Store CEnumValue) (sec : CSection) :
    Option (Store CEnumValue × CSection) :=
  sec.setEnumValueAt name sec.enums.nodeNum value s

/-! ## Configurations -/

structure CConfOpt where
  sections : List CSection
  store : Store CEnumValue
  /-- `m_cSection`, by its name -/
  cSection : Option (List UInt8)
  configChange : Bool
  deriving DecidableEq

def CConfOpt.initial : CConfOpt := ⟨[], ⟨[], []⟩, none, false⟩

/-- `SearchSection` -/
def CConfOpt.searchSection (name : List UInt8) (c : CConfOpt) : Option CSection :=
  Keyed.lookup CSection.name name c.sections

/-- Do something to `m_cSection` and the chains. -/
def CConfOpt.onSection (f : Store CEnumValue → CSection → Option (Store CEnumValue × CSection))
    (c : CConfOpt) : Option CConfOpt :=
  (c.cSection.bind fun name => c.searchSection name).bind fun sec => (f c.store sec).map fun r =>
    { c with
      store := r.1
      sections := Keyed.modify CSection.name sec.name (fun _ => r.2) c.sections }

/-- Find a section or create it; it becomes `m_cSection`. -/
def CConfOpt.selectSection (name : List UInt8) (column : Int) (c : CConfOpt) : CConfOpt :=
  if (c.searchSection name).isSome then { c with cSection := some name }
  else { c with
    cSection := some name
    sections := Keyed.insert CSection.name (newSection name column) c.sections }

/-- `SetEnumValue(section, value, column, _)` -/
def CConfOpt.setEnumValue (sectionName value : List UInt8) (column : Int) (c : CConfOpt) :
    Option CConfOpt :=
  if sectionName = [] ∨ value = [] then some c
  else if ¬ FormatFits 256 sectionName then none
  else if firstWord value = [] ∨ 127 < (firstWord value).length then none
  else
    let strSection := formatTo sectionName
    let selected := { c.selectSection strSection column with configChange := true }
    selected.onSection fun s sec => sec.setEnumValue strSection (firstWord value) s

/-- `CSection::SetComment(CComment *&)`, with a comment. -/
def CSection.setComment (comment : List (List UInt8)) (sec : CSection) : Option CSection :=
  if sec.comment = [] then some { sec with comment := comment }
  else (pushChain sec.comment comment).map fun chain => { sec with comment := chain }

/-- `AddSection` -/
def CConfOpt.addSection (name : List UInt8) (column : Int) (comment : List UInt8) (c : CConfOpt) :
    Option CConfOpt :=
  let selected :=
    { c with
      cSection := some name
      sections := Keyed.insert CSection.name (newSection name column) c.sections
      configChange := true }
  (selected.onSection fun s sec => (sec.setComment [newComment ruleComment]).map (s, ·)).bind
    fun c =>
    if comment = [] then some c
    else c.onSection fun s sec => (sec.setComment [newComment comment]).map (s, ·)

/-- The comment of `GetCount` when it is given none: that the values are to be written
below, and what divides them. -/
def promptText : List UInt8 :=
  [199, 235, 212, 218, 177, 234, 204, 226, 207, 194, 195, 230, 202, 228, 200, 235, 195, 182,
    190, 217, 208, 205, 177, 228, 193, 191, 181, 196, 214, 181, 163, 172, 210, 212, 191, 213,
    184, 241, 161, 162, 187, 216, 179, 181, 187, 242, 84, 65, 66, 183, 214, 184, 244]

/-- `GetCount(section, column, comment)`; a comment may be `NULL`. -/
def CConfOpt.getCount (sectionName : List UInt8) (column : Int) (comment : Option (List UInt8))
    (c : CConfOpt) : Option (Int × CConfOpt) :=
  if sectionName = [] then some (0, c)
  else if ¬ FormatFits 256 sectionName then none
  else
    let strSection := formatTo sectionName
    match c.searchSection strSection with
    | none => (c.addSection strSection column (comment.getD promptText)).map fun c => (0, c)
    | some _ =>
      let selected := { c with cSection := some strSection }
      ((selected.onSection fun s sec => some (s, { sec with column := column })).bind fun c =>
        (c.searchSection strSection).map fun sec => (sec.enums.nodeNum, c))

/-- `GetValue(section, index, value, comment)`: the result, and what `value` holds
then, `none` where it is left alone. -/
def CConfOpt.getValue (sectionName : List UInt8) (index : Int) (comment : Option (List UInt8))
    (c : CConfOpt) : Option (Int × Option (List UInt8) × CConfOpt) :=
  if sectionName = [] then some (0, none, c)
  else if ¬ FormatFits 256 sectionName then none
  else
    let strSection := formatTo sectionName
    match c.searchSection strSection with
    | none => (c.addSection strSection 0 (comment.getD [])).map fun c => (0, none, c)
    | some sec =>
      (searchEnumValue index c.store sec.enums).bind fun r =>
        let selected := { c with cSection := some strSection }
        (selected.onSection fun s sec => some (s, { sec with enums := r.2 })).map fun c =>
          match r.1 with
          | some v => (1, some v.value, c)
          | none => (0, some [], c)

/-- `CleanEnum`, and `CleanSection` where `all` is set. -/
def CConfOpt.clean (all : Bool) (sectionName : List UInt8) (c : CConfOpt) :
    Option (Int × CConfOpt) :=
  if sectionName = [] then some (0, c)
  else if ¬ FormatFits 256 sectionName then none
  else
    let strSection := formatTo sectionName
    match c.searchSection strSection with
    | none => some (0, { c with cSection := none })
    | some _ =>
      let selected := { c with cSection := some strSection }
      (selected.onSection fun s sec => (sec.enums.empty enumChain s).map fun r =>
        (r.1, if all then { sec with records := [], enums := r.2, comment := [] }
          else { sec with enums := r.2 })).map fun c => (1, c)

/-! ## The chain of one section -/

section Chain

variable {s : Store CEnumValue} {m : CTDChainMgr} {cells : List (Nat × CEnumValue)}
  {ws : List (List UInt8)}

/-- Each value with its position. -/
def indexed (ws : List (List UInt8)) : List CEnumValue := ws.mapIdx fun i w => ⟨i, w⟩

theorem indexed_concat (ws : List (List UInt8)) (w : List UInt8) :
    indexed (ws ++ [w]) = indexed ws ++ [⟨ws.length, w⟩] := List.mapIdx_concat

theorem length_indexed (ws : List (List UInt8)) : (indexed ws).length = ws.length :=
  List.length_mapIdx

/-- The value with a given index is the one at that position. -/
theorem find_indexed (ws : List (List UInt8)) (i : Nat) :
    ((indexed ws).find? fun v => decide (v.index = (i : Int))) = ws[i]?.map fun w => ⟨i, w⟩ := by
  induction ws using List.reverseRecOn with
  | nil => rfl
  | append_singleton ws w ih =>
    rw [indexed_concat, List.find?_append, ih]
    by_cases hi : i < ws.length
    · rw [List.getElem?_append_left hi, List.getElem?_eq_getElem hi]
      rfl
    · rw [List.getElem?_eq_none (Nat.le_of_not_lt hi), Option.map_none, Option.none_or]
      by_cases heq : ws.length = i
      · rw [← heq, List.getElem?_concat_length, List.find?_cons_of_pos (by simp)]
        rfl
      · rw [List.getElem?_eq_none (by simp; omega), List.find?_cons_of_neg (by
          simp only [decide_eq_true_eq]
          omega)]
        rfl

/-- The chain holds different values, and the index of each is its position. -/
def Represents (s : Store CEnumValue) (m : CTDChainMgr) (ws : List (List UInt8)) : Prop :=
  ∃ cells, Holds s m cells ∧ cells.map Prod.snd = indexed ws ∧ ws.Nodup

theorem represents_null (s : Store CEnumValue) : Represents s .null [] :=
  ⟨[], holds_null s, rfl, .nil⟩

theorem Represents.num (R : Represents s m ws) : m.nodeNum = ws.length := by
  obtain ⟨cells, H, hcells, -⟩ := R
  rw [H.num, ← length_indexed ws, ← hcells, List.length_map]

/-- An index below the number gives the value at that position, any other none. -/
theorem searchEnumValue_spec (R : Represents s m ws) (index : Int) :
    ∃ m', searchEnumValue index s m =
        some ((if index < 0 then none else ws[index.toNat]?.map fun w => ⟨index, w⟩), m') ∧
      Represents s m' ws := by
  have hnum := R.num
  obtain ⟨cells, H, hcells, hnodup⟩ := R
  by_cases hge : index ≥ m.nodeNum
  · refine ⟨m, ?_, cells, H, hcells, hnodup⟩
    have hnone : ws[index.toNat]? = none := List.getElem?_eq_none (by omega)
    rw [searchEnumValue, if_pos hge, hnone, Option.map_none, ite_self]
  · obtain ⟨curr, hsearch⟩ := searchItems_spec (fun v => decide (v.index = index)) H.linked H.head
    refine ⟨{ m with nodeCurr := curr }, ?_, cells,
      ⟨H.linked, H.head, H.tail, H.num⟩, hcells, hnodup⟩
    rw [searchEnumValue, if_neg hge, hsearch, hcells]
    refine congrArg (fun v => some (v, _)) ?_
    by_cases hneg : index < 0
    · rw [if_pos hneg, List.find?_eq_none]
      intro v hv
      obtain ⟨i, hi, rfl⟩ := List.mem_mapIdx.mp hv
      simp only [decide_eq_true_eq]
      omega
    · obtain ⟨i, rfl⟩ := Int.eq_ofNat_of_zero_le (Int.not_lt.mp hneg)
      rw [if_neg hneg, Int.toNat_natCast]
      exact find_indexed ws i

/-- A push on a chain in no order that refuses equal items. -/
theorem push_unsorted {α : Type} {t : Params α} {s : Store α} {m : CTDChainMgr}
    {cells : List (Nat × α)} (item : α) (hsort : t.sort = false) (hreject : t.equal = .CtEM_REJECT)
    (H : Holds s m cells) :
    ∃ code s' m', m.push t item s = some (code, s', m') ∧
      ((∃ c ∈ cells, t.eq c.2 item = true) ∧ Holds s' m' cells ∨
        (∀ c ∈ cells, t.eq c.2 item = false) ∧ Holds s' m' (cells ++ [(s.heap.length, item)])) := by
  rcases List.eq_nil_or_concat cells with rfl | ⟨init, c, rfl⟩
  · obtain ⟨m', hpush, H', -⟩ := push_empty t item H
    exact ⟨_, _, m', hpush, .inr ⟨by simp, H'⟩⟩
  · rw [List.concat_eq_append] at *
    obtain ⟨L₁, -⟩ := H.linked.alloc ⟨none, none, item⟩
    rcases search_spec t item L₁ with ⟨hnone, hall, -⟩ | ⟨d, hd, hfound, heq⟩
    · have hnew : equalNode t item (alloc ⟨none, none, item⟩ s.heap) c.1 = some none := by
        rw [equalNode_search (by rw [hreject]; decide), hnone]
      obtain ⟨h', pre, post, m', hpush, hplace, H', -⟩ := push_new H hnew
      refine ⟨_, _, m', hpush, .inr ⟨hall hsort, ?_⟩⟩
      cases hplace with
      | unsorted _ => exact H'
      | behindAll hs _ _ => rw [hsort] at hs; cases hs
      | forward hs _ _ _ _ => rw [hsort] at hs; cases hs
      | backward hs _ _ _ _ => rw [hsort] at hs; cases hs
      | beforeAll hs _ _ => rw [hsort] at hs; cases hs
    · have U := free_alloc_untouched ⟨none, none, item⟩ s.heap []
      exact ⟨_, _, m, push_refused H (pushItem_rejected hreject hfound) (by decide),
        .inl ⟨⟨d, hd, heq⟩, H.frame U (by simp)⟩⟩

/-- A value gets the number of values as its index, and goes to the end if it is new. -/
theorem push_represents (R : Represents s m ws) (w : List UInt8) :
    ∃ code s' m', m.push enumChain ⟨ws.length, w⟩ s = some (code, s', m') ∧
      Represents s' m' (if w ∈ ws then ws else ws ++ [w]) := by
  obtain ⟨cells, H, hcells, hnodup⟩ := R
  have hvalues : ∀ v : List UInt8, (∃ c ∈ cells, c.2.value = v) ↔ v ∈ ws := by
    intro v
    constructor
    · rintro ⟨c, hc, rfl⟩
      have ha : c.2 ∈ indexed ws := hcells ▸ List.mem_map_of_mem hc
      obtain ⟨i, hi, heq⟩ := List.mem_mapIdx.mp ha
      rw [← heq]
      exact List.getElem_mem hi
    · intro hv
      obtain ⟨i, hi, rfl⟩ := List.getElem_of_mem hv
      have ha : (⟨i, ws[i]⟩ : CEnumValue) ∈ cells.map Prod.snd := by
        rw [hcells]
        exact List.mem_mapIdx.mpr ⟨i, hi, rfl⟩
      obtain ⟨c, hc, heq⟩ := List.mem_map.mp ha
      exact ⟨c, hc, by rw [heq]⟩
  obtain ⟨code, s', m', hpush, h⟩ := push_unsorted (t := enumChain) ⟨ws.length, w⟩ rfl rfl H
  refine ⟨code, s', m', hpush, ?_⟩
  rcases h with ⟨⟨c, hc, heq⟩, H'⟩ | ⟨hall, H'⟩
  · rw [if_pos ((hvalues w).mp ⟨c, hc, of_decide_eq_true heq⟩)]
    exact ⟨cells, H', hcells, hnodup⟩
  · have hnew : w ∉ ws := by
      intro hw
      obtain ⟨c, hc, heq⟩ := (hvalues w).mpr hw
      exact of_decide_eq_false (hall c hc) heq
    rw [if_neg hnew]
    refine ⟨_, H', ?_, ?_⟩
    · rw [indexed_concat, List.map_append, hcells]
      rfl
    · exact (List.perm_append_singleton w ws).nodup_iff.mpr (List.nodup_cons.mpr ⟨hnew, hnodup⟩)

end Chain

/-! ## One section of a configuration -/

section Conf

variable {c : CConfOpt} {name : List UInt8} {sec : CSection} {ws : List (List UInt8)}

/-- The values of a section; a section that is not there has none. -/
def Shows (c : CConfOpt) (name : List UInt8) (ws : List (List UInt8)) : Prop :=
  match c.searchSection name with
  | none => ws = []
  | some sec => Represents c.store sec.enums ws

theorem shows_some (hfound : c.searchSection name = some sec) :
    Shows c name ws ↔ Represents c.store sec.enums ws := by
  rw [Shows, hfound]

/-- `m_cSection` is the section with this name. -/
structure Selected (c : CConfOpt) (name : List UInt8) (sec : CSection) : Prop where
  current : c.cSection = some name
  found : c.searchSection name = some sec

theorem Selected.key (S : Selected c name sec) : sec.name = name := (Keyed.lookup_mem _ S.found).2

/-- What is done to `m_cSection` is found there. -/
theorem onSection_selected {f : Store CEnumValue → CSection → Option (Store CEnumValue × CSection)}
    {t : Store CEnumValue} {d : CSection} (S : Selected c name sec)
    (hf : f c.store sec = some (t, d)) (hname : d.name = sec.name) :
    ∃ c', c.onSection f = some c' ∧ Selected c' name d ∧ c'.store = t := by
  refine ⟨{ c with
      store := t
      sections := Keyed.modify CSection.name sec.name (fun _ => d) c.sections }, ?_,
        ⟨S.current, ?_⟩, rfl⟩
  · rw [CConfOpt.onSection, S.current, Option.bind_some, S.found, Option.bind_some, hf]
    rfl
  · have hkey : d.name = name := hname.trans S.key
    change Keyed.lookup CSection.name name (Keyed.modify CSection.name sec.name _ c.sections) = _
    rw [S.key, Keyed.lookup_modify _ fun _ _ => hkey, if_pos rfl]
    have hfound : Keyed.lookup CSection.name name c.sections = some sec := S.found
    rw [hfound]
    rfl

theorem lookup_new (column : Int) (hnone : c.searchSection name = none) :
    Keyed.lookup CSection.name name
      (Keyed.insert CSection.name (newSection name column) c.sections) =
      some (newSection name column) := by
  have hnew : ∀ sec ∈ c.sections, sec.name ≠ (newSection name column).name :=
    (Keyed.lookup_eq_none CSection.name).mp hnone
  rw [Keyed.lookup_insert _ hnew]
  exact if_pos rfl

/-- A section that is looked for to be written has its values, or none. -/
theorem selectSection_shows (column : Int) (h : Shows c name ws) :
    ∃ sec, Selected { c.selectSection name column with configChange := true } name sec ∧
      Represents (c.selectSection name column).store sec.enums ws := by
  unfold CConfOpt.selectSection
  cases hfound : c.searchSection name with
  | some sec => exact ⟨sec, ⟨rfl, hfound⟩, (shows_some hfound).mp h⟩
  | none =>
    rw [Shows, hfound] at h
    subst h
    exact ⟨newSection name column, ⟨rfl, lookup_new column hfound⟩, represents_null _⟩

/-- `SetEnumValue` of a section. -/
theorem setEnumValue_section {s : Store CEnumValue} (R : Represents s sec.enums ws)
    (w : List UInt8) :
    ∃ s' sec', sec.setEnumValue sec.name w s = some (s', sec') ∧ sec'.name = sec.name ∧
      sec'.records = sec.records ∧ sec'.comment = sec.comment ∧
      sec'.maxWidth = max sec.maxWidth w.length ∧
      Represents s' sec'.enums (if w ∈ ws then ws else ws ++ [w]) := by
  -- the next free index is none of a value
  obtain ⟨m, hsearch, R'⟩ := searchEnumValue_spec R sec.enums.nodeNum
  have hnone : ws[sec.enums.nodeNum.toNat]? = none := List.getElem?_eq_none (by rw [R.num]; simp)
  rw [hnone, Option.map_none, ite_self] at hsearch
  obtain ⟨code, s', m', hpush, R''⟩ := push_represents R' w
  refine ⟨s', { sec with maxWidth := max sec.maxWidth w.length, enums := m' }, ?_,
    rfl, rfl, rfl, rfl, R''⟩
  rw [CSection.setEnumValue, CSection.setEnumValueAt, if_neg (fun h => h rfl), hsearch,
    Option.bind_some]
  have hindex : sec.enums.nodeNum = ws.length := R.num
  simp only [hindex, hpush, Option.map_some]

/-- The section as the list of its values, as `IniConf` has it. -/
structure Lists (s : Store CEnumValue) (sec : CSection) (l : NetmtIniConf.CSection) : Prop where
  name : sec.name = l.name
  records : sec.records = l.records
  maxWidth : sec.maxWidth = l.maxWidth
  comment : sec.comment = l.comment
  enums : Represents s sec.enums l.enums

/-- What the chain does is what `IniConf` says of the list. -/
theorem setEnumValue_lists {s : Store CEnumValue} {l : NetmtIniConf.CSection} (R : Lists s sec l)
    (w : List UInt8) : ∃ s' sec', sec.setEnumValue name w s = some (s', sec') ∧
      Lists s' sec' (l.setEnumValue name w) := by
  by_cases hname : sec.name = name
  · obtain ⟨s', sec', hset, hname', hrecords, hcomment, hwidth, R'⟩ :=
      setEnumValue_section R.enums w
    refine ⟨s', sec', hname ▸ hset, ?_⟩
    rw [NetmtIniConf.CSection.setEnumValue, if_neg fun h => h (R.name ▸ hname)]
    exact ⟨hname'.trans R.name, hrecords.trans R.records, by rw [hwidth, R.maxWidth],
      hcomment.trans R.comment, R'⟩
  · refine ⟨s, sec, ?_, ?_⟩
    · rw [CSection.setEnumValue, CSection.setEnumValueAt, if_pos hname]
    · rw [NetmtIniConf.CSection.setEnumValue, if_pos fun h => hname (R.name.trans h)]
      exact R

/-- `SetEnumValue` of a configuration. -/
theorem setEnumValue_shows {sectionName value : List UInt8} (column : Int)
    (hfits : FormatFits 256 sectionName) (hword : firstWord value ≠ [])
    (hlen : (firstWord value).length ≤ 127) (h : Shows c (formatTo sectionName) ws) :
    ∃ c', c.setEnumValue sectionName value column = some c' ∧
      Shows c' (formatTo sectionName)
        (if firstWord value ∈ ws then ws else ws ++ [firstWord value]) := by
  have hvalue : value ≠ [] := by
    rintro rfl
    exact hword rfl
  obtain ⟨sec, S, R⟩ := selectSection_shows column h
  obtain ⟨s', sec', hset, hname, -, -, -, R'⟩ := setEnumValue_section R (firstWord value)
  rw [S.key] at hset
  obtain ⟨c', hrun, S', hstore⟩ := onSection_selected
    (f := fun s sec => sec.setEnumValue (formatTo sectionName) (firstWord value) s) S hset hname
  refine ⟨c', ?_, ?_⟩
  · rw [CConfOpt.setEnumValue, if_neg (by simp [hfits.ne_nil, hvalue]),
      if_neg (not_not.mpr hfits), if_neg (by simp [hword, hlen])]
    exact hrun
  · rw [shows_some S'.found, hstore]
    exact R'

theorem setComment_some (comment : List UInt8) (sec : CSection) : ∃ chain,
    sec.setComment [newComment comment] = some { sec with comment := chain } := by
  rw [CSection.setComment]
  split
  · exact ⟨_, rfl⟩
  · exact ⟨_, rfl⟩

/-- A comment leaves the values as they are. -/
theorem onSection_comment (comment : List UInt8) (S : Selected c name sec) :
    ∃ c' sec', (c.onSection fun s sec =>
      (sec.setComment [newComment comment]).map (s, ·)) = some c' ∧
      Selected c' name sec' ∧ sec'.enums = sec.enums ∧ c'.store = c.store := by
  obtain ⟨chain, hset⟩ := setComment_some comment sec
  obtain ⟨c', hrun, S', hstore⟩ := onSection_selected
    (f := fun s sec => (sec.setComment [newComment comment]).map (s, ·)) (t := c.store)
    (d := { sec with comment := chain }) S (by rw [hset]; rfl) rfl
  exact ⟨c', _, hrun, S', rfl, hstore⟩

/-- A section that is added has no values. -/
theorem addSection_shows (column : Int) (comment : List UInt8)
    (hnone : c.searchSection name = none) :
    ∃ c', c.addSection name column comment = some c' ∧ Shows c' name [] := by
  let c₀ : CConfOpt :=
    { c with
      cSection := some name
      sections := Keyed.insert CSection.name (newSection name column) c.sections
      configChange := true }
  have S : Selected c₀ name (newSection name column) := ⟨rfl, lookup_new column hnone⟩
  obtain ⟨c₁, sec₁, hrule, S₁, henums₁, -⟩ := onSection_comment ruleComment S
  have hnull : ∀ s : Store CEnumValue, Represents s sec₁.enums [] :=
    fun s => henums₁ ▸ represents_null s
  have hadd : c.addSection name column comment = if comment = [] then some c₁
      else c₁.onSection fun s sec => (sec.setComment [newComment comment]).map (s, ·) := by
    rw [CConfOpt.addSection]
    change (CConfOpt.onSection _ c₀).bind _ = _
    rw [hrule]
    rfl
  rw [hadd]
  by_cases hc : comment = []
  · exact ⟨c₁, if_pos hc, (shows_some S₁.found).mpr (hnull _)⟩
  · obtain ⟨c₂, sec₂, hset, S₂, henums₂, -⟩ := onSection_comment comment S₁
    refine ⟨c₂, (if_neg hc).trans hset, (shows_some S₂.found).mpr ?_⟩
    rw [henums₂]
    exact hnull _

/-- `GetCount` gives the number of values, and leaves them. -/
theorem getCount_shows {sectionName : List UInt8} (column : Int) (comment : Option (List UInt8))
    (hfits : FormatFits 256 sectionName) (h : Shows c (formatTo sectionName) ws) :
    ∃ c', c.getCount sectionName column comment = some ((ws.length : Int), c') ∧
      Shows c' (formatTo sectionName) ws := by
  rw [CConfOpt.getCount, if_neg hfits.ne_nil, if_neg (not_not.mpr hfits)]
  cases hfound : c.searchSection (formatTo sectionName) with
  | none =>
    rw [Shows, hfound] at h
    subst h
    obtain ⟨c', hadd, h'⟩ := addSection_shows column (comment.getD promptText) hfound
    exact ⟨c', by simp only [hfound, hadd]; rfl, h'⟩
  | some sec =>
    have R := (shows_some hfound).mp h
    have S : Selected { c with cSection := some (formatTo sectionName) }
        (formatTo sectionName) sec :=
      ⟨rfl, hfound⟩
    obtain ⟨c', hrun, S', hstore⟩ := onSection_selected
      (f := fun s sec => some (s, { sec with column := column })) S rfl rfl
    refine ⟨c', ?_, ?_⟩
    · simp only [hfound, hrun, Option.bind_some, S'.found, Option.map_some]
      exact congrArg (fun n => some (n, c')) R.num
    · rw [shows_some S'.found, hstore]
      exact R

/-- `GetValue` gives the value at an index there is, and 0 for any other. -/
theorem getValue_shows {sectionName : List UInt8} (index : Int) (comment : Option (List UInt8))
    (hfits : FormatFits 256 sectionName) (h : Shows c (formatTo sectionName) ws) :
    ∃ r c' value, c.getValue sectionName index comment = some (r, value, c') ∧
      Shows c' (formatTo sectionName) ws ∧
      (∀ w, 0 ≤ index → ws[index.toNat]? = some w → r = 1 ∧ value = some w) ∧
      (index < 0 ∨ ws.length ≤ index → r = 0) := by
  rw [CConfOpt.getValue, if_neg hfits.ne_nil, if_neg (not_not.mpr hfits)]
  cases hfound : c.searchSection (formatTo sectionName) with
  | none =>
    rw [Shows, hfound] at h
    subst h
    obtain ⟨c', hadd, h'⟩ := addSection_shows 0 (comment.getD []) hfound
    refine ⟨0, c', none, by simp only [hfound, hadd]; rfl, h', fun w _ hw => ?_, fun _ => rfl⟩
    cases hw
  | some sec =>
    have R := (shows_some hfound).mp h
    obtain ⟨m, hsearch, R'⟩ := searchEnumValue_spec R index
    have S : Selected { c with cSection := some (formatTo sectionName) }
        (formatTo sectionName) sec :=
      ⟨rfl, hfound⟩
    obtain ⟨c', hrun, S', hstore⟩ := onSection_selected
      (f := fun s sec => some (s, { sec with enums := m })) S rfl rfl
    have hshows : Shows c' (formatTo sectionName) ws := by
      rw [shows_some S'.found, hstore]
      exact R'
    by_cases hneg : index < 0
    · refine ⟨0, c', some [], ?_, hshows, fun w hpos _ => by omega, fun _ => rfl⟩
      rw [if_pos hneg] at hsearch
      simp only [hfound, hsearch, Option.bind_some, hrun, Option.map_some]
    · rw [if_neg hneg] at hsearch
      cases hw : ws[index.toNat]? with
      | none =>
        refine ⟨0, c', some [], ?_, hshows, fun w _ hw' => (by cases hw'), fun _ => rfl⟩
        simp only [hfound, hsearch, hw, Option.map_none, Option.bind_some, hrun, Option.map_some]
      | some w =>
        refine ⟨1, c', some w, ?_, hshows, fun w' _ hw' => ⟨rfl, hw'⟩, fun hout => ?_⟩
        · simp only [hfound, hsearch, hw, Option.map_some, Option.bind_some, hrun]
        · have hlt := (List.getElem?_eq_some_iff.mp hw).1
          omega

/-- Cleaning leaves no values. -/
theorem clean_shows {sectionName : List UInt8} (all : Bool) (hfits : FormatFits 256 sectionName)
    (h : Shows c (formatTo sectionName) ws) : ∃ r c', c.clean all sectionName = some (r, c') ∧
      Shows c' (formatTo sectionName) [] := by
  rw [CConfOpt.clean, if_neg hfits.ne_nil, if_neg (not_not.mpr hfits)]
  cases hfound : c.searchSection (formatTo sectionName) with
  | none =>
    refine ⟨0, { c with cSection := none }, by simp only [hfound], ?_⟩
    have hnone : CConfOpt.searchSection (formatTo sectionName) { c with cSection := none } = none :=
      hfound
    rw [Shows, hnone]
  | some sec =>
    obtain ⟨cells, H, -, -⟩ := (shows_some hfound).mp h
    obtain ⟨s', hempty⟩ := empty_sound enumChain H
    have S : Selected { c with cSection := some (formatTo sectionName) }
        (formatTo sectionName) sec :=
      ⟨rfl, hfound⟩
    let sec' : CSection :=
      if all then { sec with records := [], enums := .null, comment := [] }
        else { sec with enums := .null }
    have henums : sec'.enums = .null ∧ sec'.name = sec.name := by
      change (if all then _ else _ : CSection).enums = _ ∧
        (if all then _ else _ : CSection).name = _
      split <;> exact ⟨rfl, rfl⟩
    obtain ⟨c', hrun, S', -⟩ := onSection_selected
      (f := fun s sec => (sec.enums.empty enumChain s).map fun r =>
        (r.1, if all then { sec with records := [], enums := r.2, comment := [] }
          else { sec with enums := r.2 })) (t := s') (d := sec') S
      (by
        have hempty' : CTDChainMgr.empty enumChain c.store sec.enums = some (s', .null) := hempty
        change (CTDChainMgr.empty enumChain c.store sec.enums).map _ = _
        rw [hempty']
        rfl) henums.2
    refine ⟨1, c', ?_, ?_⟩
    · simp only [hfound, hrun, Option.map_some]
    · rw [shows_some S'.found, henums.1]
      exact represents_null _

end Conf

/-! ## Runs of calls -/

/-- The calls on one section. -/
inductive EnumCall where
  | setEnumValue (value : List UInt8) (column : Int)
  | cleanEnum | cleanSection
  | getCount (column : Int) (comment : Option (List UInt8))
  | getValue (index : Int) (comment : Option (List UInt8))
  deriving DecidableEq

def call (sectionName : List UInt8) (c : CConfOpt) : EnumCall → Option CConfOpt
  | .setEnumValue value column => c.setEnumValue sectionName value column
  | .cleanEnum => (c.clean false sectionName).map Prod.snd
  | .cleanSection => (c.clean true sectionName).map Prod.snd
  | .getCount column comment => (c.getCount sectionName column comment).map Prod.snd
  | .getValue index comment => (c.getValue sectionName index comment).map fun r => r.2.2

def calls (sectionName : List UInt8) (cs : List EnumCall) (c : CConfOpt) : Option CConfOpt :=
  cs.foldlM (call sectionName) c

/-- The words set since the section was last cleaned, behind those of before. -/
def setSince (before : List (List UInt8)) : EnumCall → List (List UInt8)
  | .setEnumValue value _ => before ++ [firstWord value]
  | .cleanEnum | .cleanSection => []
  | .getCount _ _ | .getValue _ _ => before

/-- Each value that is set begins with a word that fits `strValue`. -/
def Worded : EnumCall → Prop
  | .setEnumValue value _ => firstWord value ≠ [] ∧ (firstWord value).length ≤ 127
  | _ => True

instance (e : EnumCall) : Decidable (Worded e) :=
  match e with
  | .setEnumValue value _ =>
    inferInstanceAs (Decidable (firstWord value ≠ [] ∧ (firstWord value).length ≤ 127))
  | .cleanEnum | .cleanSection | .getCount _ _ | .getValue _ _ => inferInstanceAs (Decidable True)

theorem eraseDups_concat (ws : List (List UInt8)) (w : List UInt8) :
    (ws ++ [w]).eraseDups = if w ∈ ws.eraseDups then ws.eraseDups else ws.eraseDups ++ [w] := by
  rw [List.eraseDups_append]
  by_cases hw : w ∈ ws
  · rw [if_pos (List.mem_eraseDups.mpr hw)]
    simp [List.removeAll, hw]
  · rw [if_neg fun h => hw (List.mem_eraseDups.mp h)]
    simp [List.removeAll, hw, List.eraseDups_cons]

section Runs

variable {c : CConfOpt} {sectionName : List UInt8} {ws : List (List UInt8)}

/-- One call. -/
theorem call_shows (e : EnumCall) (hfits : FormatFits 256 sectionName) (hword : Worded e)
    (h : Shows c (formatTo sectionName) ws.eraseDups) : ∃ c', call sectionName c e = some c' ∧
      Shows c' (formatTo sectionName) (setSince ws e).eraseDups := by
  cases e with
  | setEnumValue value column =>
    rw [setSince, eraseDups_concat]
    exact setEnumValue_shows column hfits hword.1 hword.2 h
  | cleanEnum =>
    obtain ⟨r, c', hrun, h'⟩ := clean_shows false hfits h
    exact ⟨c', by rw [call, hrun]; rfl, h'⟩
  | cleanSection =>
    obtain ⟨r, c', hrun, h'⟩ := clean_shows true hfits h
    exact ⟨c', by rw [call, hrun]; rfl, h'⟩
  | getCount column comment =>
    obtain ⟨c', hrun, h'⟩ := getCount_shows column comment hfits h
    exact ⟨c', by rw [call, hrun]; rfl, h'⟩
  | getValue index comment =>
    obtain ⟨r, c', value, hrun, h', -⟩ := getValue_shows index comment hfits h
    exact ⟨c', by rw [call, hrun]; rfl, h'⟩

theorem calls_show (cs : List EnumCall) (hfits : FormatFits 256 sectionName)
    (hwords : ∀ e ∈ cs, Worded e) (h : Shows c (formatTo sectionName) ws.eraseDups) :
    ∃ c', calls sectionName cs c = some c' ∧
      Shows c' (formatTo sectionName) (cs.foldl setSince ws).eraseDups := by
  induction cs generalizing c ws with
  | nil => exact ⟨c, rfl, h⟩
  | cons e cs ih =>
    obtain ⟨c₁, hcall, h₁⟩ := call_shows e hfits (hwords e List.mem_cons_self) h
    obtain ⟨c', hrun, h'⟩ := ih (fun d hd => hwords d (List.mem_cons_of_mem e hd)) h₁
    refine ⟨c', ?_, h'⟩
    rw [calls, List.foldlM_cons, hcall]
    exact hrun

/-- After any calls on a section, the number of values is that of the different words
set since it was cleaned, and the index of each is its place among the first
settings. `before` are the words that were there; the section's name fits `strSection`. -/
theorem enums_indexed (c : CConfOpt) (sectionName : List UInt8) (before : List (List UInt8))
    (cs : List EnumCall) (hfits : FormatFits 256 sectionName)
    (hwords : ∀ e ∈ cs, Worded e) (h : Shows c (formatTo sectionName) before.eraseDups) :
    ∃ c', calls sectionName cs c = some c' ∧
      (∀ column comment, ∃ d, c'.getCount sectionName column comment =
        some (((cs.foldl setSince before).eraseDups.length : Int), d)) ∧
      (∀ (i : Nat) (hi : i < (cs.foldl setSince before).eraseDups.length) comment, ∃ d,
        c'.getValue sectionName i comment =
          some (1, some ((cs.foldl setSince before).eraseDups[i]), d)) ∧
      ∀ (i : Int) comment, (cs.foldl setSince before).eraseDups.length ≤ i → ∃ value d,
        c'.getValue sectionName i comment = some (0, value, d) := by
  obtain ⟨c', hrun, h'⟩ := calls_show cs hfits hwords h
  refine ⟨c', hrun, fun column comment => ?_, fun i hi comment => ?_, fun i comment hi => ?_⟩
  · obtain ⟨d, hcount, -⟩ := getCount_shows column comment hfits h'
    exact ⟨d, hcount⟩
  · obtain ⟨r, d, value, hget, -, hin, -⟩ := getValue_shows i comment hfits h'
    obtain ⟨rfl, rfl⟩ := hin _ (Int.natCast_nonneg i) (List.getElem?_eq_getElem hi)
    exact ⟨d, hget⟩
  · obtain ⟨r, d, value, hget, -, -, hout⟩ := getValue_shows i comment hfits h'
    obtain rfl := hout (.inr hi)
    exact ⟨value, d, hget⟩

/-- A first value that is cleaned away, then two, one of them twice: `a` is the first
and `b` the second of two. -/
theorem enums_indexed_again :
    ∃ c', calls [115] [.setEnumValue [98] 0, .cleanEnum, .setEnumValue [97, 32, 99] 0,
      .setEnumValue [32, 98] 0, .setEnumValue [97] 0] .initial = some c' ∧
    (∃ d, c'.getCount [115] 0 none = some (2, d)) ∧
    ∃ d, c'.getValue [115] 1 none = some (1, some [98], d) := by
  obtain ⟨c', hrun, hcount, hvalue, -⟩ := enums_indexed .initial [115] []
    [.setEnumValue [98] 0, .cleanEnum, .setEnumValue [97, 32, 99] 0, .setEnumValue [32, 98] 0,
      .setEnumValue [97] 0] (by decide) (by decide) rfl
  exact ⟨c', hrun, hcount 0 none, hvalue 1 (by decide) none⟩

end Runs

end NetmtEnumIndex
