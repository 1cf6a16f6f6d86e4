import Netmt.MgrCalls
import Netmt.ChainMerge
import Netmt.IniConf

/-!
# Deleting a section

`iniconfopt.cpp`, `DeleteSection`. A section is an object of its own that a node of
`m_dcmSection` points to; to release one that is not live is an error, which `none`
stands for. Section names longer than their buffers are not looked at here.
-/
namespace NetmtDeleteSection

open Links NetmtTDChain NetmtMgrCalls NetmtOrderedPush NetmtChainMerge NetmtIniStr
open NetmtChainMgr (Pointees)
open NetmtIniConf (CSection newSection)

/-- The sections by their addresses, `none` for one that was released. -/
abbrev Objects := List (Option CSection)

/-- What a pointer to a live section shows. -/
def objectAt (objects : Objects) (p : Nat) : CSection := ((objects[p]?).join).getD (newSection [])

/-- `delete`, for a section. -/
def release (p : Nat) (objects : Objects) : Option Objects :=
  match objects[p]? with
  | some (some _) => some (objects.set p none)
  | _ => none

/-- Pointers in the order that `strcmp` gives the names behind them. -/
def byName (objects : Objects) : Pointees Nat where
  gt p q := decide ((objectAt objects q).name < (objectAt objects p).name)
  eq p q := decide ((objectAt objects p).name = (objectAt objects q).name)
  gt_asymm p q h := decide_eq_false (Std.Asymm.asymm _ _ (of_decide_eq_true h))
  gt_trans p q r h h' := decide_eq_true (Trans.trans (of_decide_eq_true h') (of_decide_eq_true h))
  total p q h h' := by
    have hp : ¬ (objectAt objects p).name < (objectAt objects q).name := of_decide_eq_false h'
    have hq : ¬ (objectAt objects q).name < (objectAt objects p).name := of_decide_eq_false h
    exact decide_eq_true
      (Std.Trichotomous.trichotomous (r := fun a b : List UInt8 => a < b) _ _ hp hq)
  eq_gt p q r h := by
    rw [of_decide_eq_true h]
    exact ⟨rfl, rfl⟩

/-- `CTDChainMgr<CSection *, 1, CtEM_REJECT, 1>` -/
def sectionChain (objects : Objects) : Params Nat :=
  ordered (byName objects) .CtEM_REJECT true fun p q => decide (q < p)

structure CConfOpt where
  objects : Objects
  chains : Store Nat
  dcmSection : CTDChainMgr
  /-- `m_cSection` -/
  cSection : Option Nat
  deriving DecidableEq

def CConfOpt.initial : CConfOpt := ⟨[], ⟨[], []⟩, .null, none⟩

/-- `SearchSection`; the cursor moves. -/
def CConfOpt.searchSection (name : List UInt8) (c : CConfOpt) : Option (Option Nat × CTDChainMgr) :=
  searchItems (fun p => decide ((objectAt c.objects p).name = name)) c.chains c.dcmSection

/-- Find a section or create it; it becomes `m_cSection`. -/
def CConfOpt.selectSection (name : List UInt8) (c : CConfOpt) : Option CConfOpt :=
  (c.searchSection name).bind fun r =>
    match r.1 with
    | some p => some { c with dcmSection := r.2, cSection := some p }
    | none =>
      let p := c.objects.length
      let objects := c.objects ++ [some (newSection name)]
      (r.2.push (sectionChain objects) p c.chains).map fun r => ⟨objects, r.2.1, r.2.2, some p⟩

/-- Do something to `m_cSection`. -/
def CConfOpt.onSection (g : CSection → CSection) (c : CConfOpt) : CConfOpt :=
  match c.cSection with
  | none => c
  | some p => { c with objects := c.objects.modify p (Option.map g) }

/-- `m_dcmSection->Pop(item)`, in which the items of the nodes are released that are
deleted. -/
def CConfOpt.pop (item : Nat) (c : CConfOpt) : Option CConfOpt :=
  (c.dcmSection.pop (sectionChain c.objects) item c.chains).bind fun r =>
    ((r.1.deleted.drop c.chains.deleted.length).foldlM
      (fun objects p => release p objects) c.objects).map
      fun objects => { c with objects := objects, chains := r.1, dcmSection := r.2 }

/-- `DeleteSection` -/
def CConfOpt.deleteSection (sectionName : List UInt8) (c : CConfOpt) : Option (Int × CConfOpt) :=
  if sectionName = [] then some (0, c)
  else
    let strSection := formatTo sectionName
    (c.searchSection strSection).bind fun r =>
      let c := { c with dcmSection := r.2, cSection := r.1 }
      match r.1 with
      | none => some (0, c)
      | some p => (c.pop p).bind fun c => (release p c.objects).map fun objects =>
          (1, { c with objects := objects, cSection := none })

/-! ## Configurations -/

/-- The chain of a manager, which has an old tail after its last node is gone. -/
structure Chain (s : Store Nat) (m : CTDChainMgr) (cells : List (Nat × Nat)) : Prop where
  linked : Linked s.heap cells
  head : m.nodeHead = first cells none
  tail : cells ≠ [] → m.nodeTail = last none cells
  num : m.nodeNum = cells.length

/-- The sections in their order, each live and with a name of its own. -/
structure Represents (c : CConfOpt) (cells : List (Nat × Nat)) (sections : List CSection) :
    Prop where
  chain : Chain c.chains c.dcmSection cells
  live : ∀ d ∈ cells, c.objects[d.2]? = some (some (objectAt c.objects d.2))
  contents : cells.map (fun d => objectAt c.objects d.2) = sections
  sorted : Keyed.Sorted CSection.name sections

/-- The section at `p` is gone and so is its object; everything else is as it was, one
less, and in order. -/
structure Deleted (p : Nat) (c c' : CConfOpt) (sections : List CSection) : Prop where
  was_live : ∃ s ∈ sections, c.objects[p]? = some (some s)
  released : c'.objects = c.objects.set p none
  others : ∃ cells', Represents c' cells'
    (sections.filter fun s => decide (s.name ≠ (objectAt c.objects p).name))
  num : c'.dcmSection.nodeNum = c.dcmSection.nodeNum - 1

/-! ## Looking for a section -/

section Sections

variable {c : CConfOpt} {cells : List (Nat × Nat)} {sections : List CSection} {name : List UInt8}

theorem Represents.mem (R : Represents c cells sections) {d : Nat × Nat} (hd : d ∈ cells) :
    objectAt c.objects d.2 ∈ sections := by
  rw [← R.contents]
  exact List.mem_map_of_mem (f := fun d : Nat × Nat => objectAt c.objects d.2) hd

/-- The cells are in the strict order of the names. -/
theorem Represents.cells_sorted (R : Represents c cells sections) :
    (byName c.objects).Sorted (cells.map Prod.snd) := by
  have hs := R.sorted
  rw [← R.contents, Keyed.Sorted, List.pairwise_map] at hs
  rw [Pointees.Sorted, List.pairwise_map]
  exact hs.imp fun h => decide_eq_true h

theorem Represents.names_nodup (R : Represents c cells sections) :
    (cells.map fun d => (objectAt c.objects d.2).name).Nodup := by
  have hs := R.cells_sorted
  rw [Pointees.Sorted, List.pairwise_map] at hs
  rw [List.Nodup, List.pairwise_map]
  refine hs.imp fun {a b} h heq => ?_
  have hlt := of_decide_eq_true h
  rw [heq] at hlt
  exact Std.Asymm.asymm _ _ hlt hlt

/-- A name belongs to one cell. -/
theorem Represents.cell_eq (R : Represents c cells sections) {d e : Nat × Nat} (hd : d ∈ cells)
    (he : e ∈ cells) (hname : (objectAt c.objects d.2).name = (objectAt c.objects e.2).name) :
    d = e :=
  List.inj_on_of_nodup_map R.names_nodup hd he hname

/-- The section is found at its cell, or there is none of that name. -/
theorem searchSection_spec (R : Represents c cells sections) (name : List UInt8) :
    ∃ curr, (∃ d ∈ cells, (objectAt c.objects d.2).name = name ∧
        c.searchSection name = some (some d.2, { c.dcmSection with nodeCurr := curr })) ∨
      ((∀ s ∈ sections, s.name ≠ name) ∧
        c.searchSection name = some (none, { c.dcmSection with nodeCurr := curr })) := by
  obtain ⟨curr, hsearch⟩ := searchItems_spec (fun p => decide ((objectAt c.objects p).name = name))
    R.chain.linked R.chain.head
  refine ⟨curr, ?_⟩
  cases hfind : (cells.map Prod.snd).find? fun p => decide ((objectAt c.objects p).name = name) with
  | some p =>
    obtain ⟨d, hd, rfl⟩ := List.mem_map.mp (List.mem_of_find?_eq_some hfind)
    have hwanted := List.find?_some hfind
    refine .inl ⟨d, hd, of_decide_eq_true hwanted, ?_⟩
    rw [CConfOpt.searchSection, hsearch, hfind]
  | none =>
    refine .inr ⟨fun s hs => ?_, ?_⟩
    · rw [← R.contents] at hs
      obtain ⟨d, hd, rfl⟩ := List.mem_map.mp hs
      have hnot := List.find?_eq_none.mp hfind d.2 (List.mem_map_of_mem hd)
      exact fun heq => hnot (decide_eq_true heq)
    · rw [CConfOpt.searchSection, hsearch, hfind]

/-! ## Making a section -/

theorem initial_represents : Represents .initial [] [] :=
  ⟨⟨.nil _, rfl, fun h => absurd rfl h, rfl⟩, fun _ hd => absurd hd List.not_mem_nil, rfl, .nil⟩

/-- A push of a pointer that the chain has no equal one for. -/
theorem Chain.push {s : Store Nat} {m : CTDChainMgr} (C : Chain s m cells) (o : Pointees Nat)
    (above : Nat → Nat → Bool) (p : Nat) (hs : o.Sorted (cells.map Prod.snd))
    (hnew : ∀ d ∈ cells, o.eq d.2 p = false) : ∃ code s' m' cells',
      m.push (ordered o .CtEM_REJECT true above) p s = some (code, s', m') ∧ Chain s' m' cells' ∧
      o.Sorted (cells'.map Prod.snd) ∧ (cells'.map Prod.snd).Perm (p :: cells.map Prod.snd) := by
  by_cases hne : cells = []
  · subst hne
    have hhead : m.nodeHead = none := C.head
    refine ⟨.CtRC_SUCCESS, { s with heap := alloc ⟨none, none, p⟩ s.heap },
      ⟨some s.heap.length, some s.heap.length, some s.heap.length, m.nodeNum + 1⟩,
      [(s.heap.length, p)], ?_,
      ⟨⟨⟨read_alloc _ _, trivial⟩, List.nodup_singleton _⟩, rfl, fun _ => rfl, ?_⟩,
      List.pairwise_singleton _ _, .refl _⟩
    · rw [CTDChainMgr.push, hhead]
    · have hnum : m.nodeNum = 0 := C.num
      rw [hnum]
      rfl
  · obtain ⟨code, s', m', cells', hpush, H, hs', -, -, hperm, -⟩ :=
      push_set above p ⟨C.linked, C.head, C.tail hne, C.num⟩ hs
    have hnot : ¬ ((cells.map Prod.snd).any fun q => o.eq q p) = true := by
      rw [any_cells, Bool.not_eq_true, List.any_eq_false]
      exact fun d hd => by rw [hnew d hd]; exact Bool.false_ne_true
    rw [pushed, if_neg hnot] at hperm
    exact ⟨code, s', m', cells', hpush, ⟨H.linked, H.head, fun _ => H.tail, H.num⟩, hs',
      hperm.trans (List.perm_append_singleton _ _)⟩

theorem Represents.addr_lt (R : Represents c cells sections) {d : Nat × Nat} (hd : d ∈ cells) :
    d.2 < c.objects.length := (List.getElem?_eq_some_iff.mp (R.live d hd)).1

theorem objectAt_append {objects : Objects} {p : Nat} (hp : p < objects.length) (s : CSection) :
    objectAt (objects ++ [some s]) p = objectAt objects p := by
  rw [objectAt, objectAt, List.getElem?_append_left hp]

theorem objectAt_new (objects : Objects) (s : CSection) :
    objectAt (objects ++ [some s]) objects.length = s := by
  rw [objectAt, List.getElem?_concat_length]
  rfl

/-- A section that is not there yet comes at its place in the order. -/
theorem selectSection_represents (R : Represents c cells sections) (name : List UInt8) :
    ∃ c' cells', c.selectSection name = some c' ∧
      Represents c' cells' (Keyed.insert CSection.name (newSection name) sections) ∧
      ∃ d ∈ cells', c'.cSection = some d.2 := by
  obtain ⟨curr, ⟨d, hd, hname, hfound⟩ | ⟨hnone, hfound⟩⟩ := searchSection_spec R name
  · refine ⟨{ c with dcmSection := { c.dcmSection with nodeCurr := curr }, cSection := some d.2 },
      cells, ?_, ?_, d, hd, rfl⟩
    · rw [CConfOpt.selectSection, hfound]
      rfl
    · rw [Keyed.insert_rejected CSection.name ⟨_, R.mem hd, hname⟩]
      exact ⟨⟨R.chain.linked, R.chain.head, R.chain.tail, R.chain.num⟩,
        R.live, R.contents, R.sorted⟩
  · let objects : Objects := c.objects ++ [some (newSection name)]
    have hsame : ∀ d ∈ cells, objectAt objects d.2 = objectAt c.objects d.2 :=
      fun d hd => objectAt_append (R.addr_lt hd) _
    have hnewAt : objectAt objects c.objects.length = newSection name := objectAt_new c.objects _
    have hsorted : (byName objects).Sorted (cells.map Prod.snd) := by
      have hs := R.cells_sorted
      rw [Pointees.Sorted, List.pairwise_map] at hs ⊢
      refine hs.imp_of_mem fun {a b} ha hb h => ?_
      change decide ((objectAt objects a.2).name < (objectAt objects b.2).name) = true
      rw [hsame a ha, hsame b hb]
      exact h
    have hother : ∀ d ∈ cells, (byName objects).eq d.2 c.objects.length = false := by
      intro d hd
      refine decide_eq_false ?_
      rw [hsame d hd, hnewAt]
      exact hnone _ (R.mem hd)
    have C : Chain c.chains { c.dcmSection with nodeCurr := curr } cells :=
      ⟨R.chain.linked, R.chain.head, R.chain.tail, R.chain.num⟩
    obtain ⟨code, s', m', cells', hpush, C', hs', hperm⟩ :=
      C.push (byName objects) (fun p q => decide (q < p)) c.objects.length hsorted hother
    obtain ⟨d, hd, haddr⟩ := List.mem_map.mp (hperm.mem_iff.mpr List.mem_cons_self)
    refine ⟨⟨objects, s', m', some c.objects.length⟩, cells', ?_, ⟨C', fun d hd => ?_, ?_, ?_⟩, d,
      hd, congrArg some haddr.symm⟩
    · rw [CConfOpt.selectSection, hfound, Option.bind_some]
      change (CTDChainMgr.push (sectionChain objects) _ _ _).map _ = _
      rw [sectionChain, hpush]
      rfl
    · change objects[d.2]? = some (some (objectAt objects d.2))
      rcases List.mem_cons.mp (hperm.mem_iff.mp (List.mem_map_of_mem hd)) with heq | hold
      · rw [heq, hnewAt]
        exact List.getElem?_concat_length
      · obtain ⟨e, he, heq⟩ := List.mem_map.mp hold
        rw [← heq, hsame e he, List.getElem?_append_left (R.addr_lt he)]
        exact R.live e he
    · refine Keyed.eq_insert CSection.name R.sorted hnone ?_ ?_
      · rw [Pointees.Sorted, List.pairwise_map] at hs'
        rw [Keyed.Sorted, List.pairwise_map]
        exact hs'.imp fun h => of_decide_eq_true h
      · have hmap := hperm.map (objectAt objects)
        rw [List.map_map, List.map_cons, List.map_map, hnewAt] at hmap
        refine hmap.trans ?_
        rw [← R.contents]
        exact .cons _ (.of_eq (List.map_congr_left hsame))
    · exact Keyed.insert_sorted CSection.name R.sorted

/-- What is done to `m_cSection` leaves the others, and the order. -/
theorem onSection_represents (R : Represents c cells sections) {d : Nat × Nat} (hd : d ∈ cells)
    (hcurr : c.cSection = some d.2) (g : CSection → CSection) (hg : ∀ s, (g s).name = s.name) :
    Represents (c.onSection g) cells
      (Keyed.modify CSection.name (objectAt c.objects d.2).name g sections) := by
  have hrun : c.onSection g = { c with objects := c.objects.modify d.2 (Option.map g) } := by
    rw [CConfOpt.onSection, hcurr]
  have hlive : ∀ e ∈ cells, (c.objects.modify d.2 (Option.map g))[e.2]? =
      some (some (if (objectAt c.objects e.2).name = (objectAt c.objects d.2).name
        then g (objectAt c.objects e.2) else objectAt c.objects e.2)) := by
    intro e he
    rw [List.getElem?_modify, R.live e he]
    by_cases hname : (objectAt c.objects e.2).name = (objectAt c.objects d.2).name
    · obtain rfl := R.cell_eq he hd hname
      simp
    · have hne : d.2 ≠ e.2 := fun heq => hname (by rw [heq])
      simp [hname, hne]
  have hat : ∀ e ∈ cells, objectAt (c.objects.modify d.2 (Option.map g)) e.2 =
      if (objectAt c.objects e.2).name = (objectAt c.objects d.2).name
        then g (objectAt c.objects e.2) else objectAt c.objects e.2 := by
    intro e he
    rw [objectAt, hlive e he]
    rfl
  rw [hrun]
  refine ⟨R.chain, fun e he => ?_, ?_, Keyed.modify_sorted CSection.name R.sorted fun s hs => ?_⟩
  · exact (hlive e he).trans (congrArg (fun s => some (some s)) (hat e he).symm)
  · rw [Keyed.modify, ← R.contents, List.map_map]
    exact List.map_congr_left hat
  · rw [hg, hs]

theorem onSection_cSection (g : CSection → CSection) (c : CConfOpt) :
    (c.onSection g).cSection = c.cSection := by
  rw [CConfOpt.onSection]
  split <;> rfl

/-- A configuration in which sections were selected, and the selected one changed. -/
inductive Made : CConfOpt → Prop where
  | initial : Made .initial
  | selectSection {c c' : CConfOpt} (name : List UInt8) :
      Made c → c.selectSection name = some c' → Made c'
  | onSection {c : CConfOpt} (g : CSection → CSection) :
      Made c → (∀ s, (g s).name = s.name) → Made (c.onSection g)

/-- Its chain holds its sections, and `m_cSection` is one of them. -/
theorem made_represents (M : Made c) : ∃ cells sections, Represents c cells sections ∧
    ∀ p, c.cSection = some p → ∃ d ∈ cells, d.2 = p := by
  induction M with
  | initial => exact ⟨[], [], initial_represents, fun p hp => by cases hp⟩
  | selectSection name _ hrun ih =>
    obtain ⟨cells, sections, R, -⟩ := ih
    obtain ⟨c', cells', hselect, R', d, hd, hcurr⟩ := selectSection_represents R name
    obtain rfl := Option.some.inj (hselect.symm.trans hrun)
    exact ⟨cells', _, R', fun p hp => ⟨d, hd, Option.some.inj (hcurr.symm.trans hp)⟩⟩
  | @onSection c g _ hg ih =>
    obtain ⟨cells, sections, R, hcurrent⟩ := ih
    cases hcurr : c.cSection with
    | none =>
      have hsame : c.onSection g = c := by rw [CConfOpt.onSection, hcurr]
      rw [hsame]
      exact ⟨cells, sections, R, hcurrent⟩
    | some p =>
      obtain ⟨d, hd, rfl⟩ := hcurrent p hcurr
      refine ⟨cells, _, onSection_represents R hd hcurr g hg, fun q hq => ?_⟩
      rw [onSection_cSection] at hq
      exact hcurrent q hq

/-! ## Popping and releasing -/

theorem getElem?_set_other {objects : Objects} {p q : Nat} (hne : p ≠ q) :
    (objects.set q none)[p]? = objects[p]? := List.getElem?_set_ne hne.symm

theorem objectAt_set_other {objects : Objects} {p q : Nat} (hne : p ≠ q) :
    objectAt (objects.set q none) p = objectAt objects p := by
  rw [objectAt, objectAt, getElem?_set_other hne]

theorem release_live {objects : Objects} {p : Nat} {s : CSection}
    (hlive : objects[p]? = some (some s)) :
    release p objects = some (objects.set p none) := by
  rw [release, hlive]

/-- What was released cannot be released again. -/
theorem release_again {objects : Objects} (p : Nat) : release p (objects.set p none) = none := by
  by_cases hp : p < objects.length
  · rw [release, List.getElem?_set_self hp]
  · rw [release, List.getElem?_eq_none (by rw [List.length_set]; exact Nat.le_of_not_lt hp)]

theorem Chain.holds {s : Store Nat} {m : CTDChainMgr} (C : Chain s m cells) (hne : cells ≠ []) :
    Holds s m cells :=
  ⟨C.linked, C.head, C.tail hne, C.num⟩

/-- `Search` from the head comes to the cell of the section. -/
theorem search_cell (R : Represents c cells sections) {d : Nat × Nat} (hd : d ∈ cells) :
    c.dcmSection.nodeHead.bind (search (sectionChain c.objects) d.2 c.chains.heap) =
      some (some d.1) := by
  obtain ⟨e, rest, rfl⟩ := List.exists_cons_of_ne_nil (List.ne_nil_of_mem hd)
  have hhead : c.dcmSection.nodeHead = some e.1 := R.chain.head
  rw [hhead, Option.bind_some]
  rcases search_ascending .CtEM_REJECT true (fun p q => decide (q < p)) d.2 R.chain.linked
    (ascending_of_sorted R.cells_sorted) List.mem_cons_self with ⟨-, hnone⟩ | ⟨f, hf, hfound, heq⟩
  · exact absurd rfl (of_decide_eq_false (hnone d hd))
  · obtain rfl := R.cell_eq hf hd (of_decide_eq_true heq)
    exact hfound

/-- `Pop` alone does all that deleting a section is to do. -/
theorem pop_deleted (R : Represents c cells sections) {d : Nat × Nat} (hd : d ∈ cells) :
    ∃ c', c.pop d.2 = some c' ∧ Deleted d.2 c c' sections := by
  have hne := List.ne_nil_of_mem hd
  have hsearch := search_cell R hd
  rcases pop_cases (sectionChain c.objects) d.2 (R.chain.holds hne) hne with
    ⟨hnone, -⟩ | ⟨pre, e, post, s', m', rfl, hfound, hpop, P⟩
  · rw [hsearch] at hnone
    cases hnone
  · obtain rfl : e = d := by
      rw [hsearch] at hfound
      exact R.chain.linked.cell_eq (by simp) hd (Option.some.inj (Option.some.inj hfound)).symm
    have hother : ∀ f ∈ pre ++ post, (objectAt c.objects f.2).name ≠
        (objectAt c.objects e.2).name := by
      have hperm : (pre ++ e :: post).Perm (e :: (pre ++ post)) := List.perm_middle
      have hnodup := (hperm.map fun d => (objectAt c.objects d.2).name).nodup_iff.mp R.names_nodup
      rw [List.map_cons, List.nodup_cons] at hnodup
      intro f hf heq
      exact hnodup.1
        (heq ▸ List.mem_map_of_mem (f := fun d : Nat × Nat => (objectAt c.objects d.2).name) hf)
    have haddr : ∀ f ∈ pre ++ post, f.2 ≠ e.2 := fun f hf heq => hother f hf (by rw [heq])
    have hin : ∀ f ∈ pre ++ post, f ∈ pre ++ e :: post := by
      intro f hf
      rcases List.mem_append.mp hf with hf | hf
      · exact List.mem_append_left _ hf
      · exact List.mem_append_right _ (List.mem_cons_of_mem _ hf)
    have hreleased : s'.deleted.drop c.chains.deleted.length = [e.2] := by
      rw [P.deleted]
      exact List.drop_left
    have hlive := R.live e hd
    have hcontents : (pre ++ post).map (fun d => objectAt (c.objects.set e.2 none) d.2) =
        sections.filter fun s => decide (s.name ≠ (objectAt c.objects e.2).name) := by
      have hsame : (pre ++ post).map (fun d => objectAt (c.objects.set e.2 none) d.2) =
          (pre ++ post).map fun d => objectAt c.objects d.2 :=
        List.map_congr_left fun f hf => objectAt_set_other (haddr f hf)
      have hkeep : ∀ l : List (Nat × Nat), (∀ f ∈ l, f ∈ pre ++ post) →
          (l.map fun d => objectAt c.objects d.2).filter
            (fun s => decide (s.name ≠ (objectAt c.objects e.2).name)) =
              l.map fun d => objectAt c.objects d.2 := by
        intro l hl
        rw [List.filter_eq_self]
        intro s hs
        obtain ⟨f, hf, rfl⟩ := List.mem_map.mp hs
        exact decide_eq_true (hother f (hl f hf))
      rw [hsame, ← R.contents, List.map_append, List.map_append, List.map_cons, List.filter_append,
        List.filter_cons_of_neg (by simp), hkeep pre fun f hf => List.mem_append_left _ hf,
        hkeep post fun f hf => List.mem_append_right _ hf]
    refine ⟨{ c with objects := c.objects.set e.2 none, chains := s', dcmSection := m' }, ?_,
      ⟨_, R.mem hd, hlive⟩, rfl,
      ⟨pre ++ post, ⟨P.linked, P.head, P.tail, P.num⟩, fun f hf => ?_, hcontents,
        R.sorted.filter _⟩, ?_⟩
    · rw [CConfOpt.pop, hpop, Option.bind_some, hreleased]
      simp only [List.foldlM_cons, List.foldlM_nil, release_live hlive]
      rfl
    · change (c.objects.set e.2 none)[f.2]? = _
      rw [getElem?_set_other (haddr f hf), R.live f (hin f hf)]
      exact congrArg (fun s => some (some s)) (objectAt_set_other (haddr f hf)).symm
    · have hnum := R.chain.num
      have hnum' := P.num
      simp only [List.length_append, List.length_cons] at hnum hnum'
      change m'.nodeNum = _
      omega

/-- The second release is never right. -/
theorem deleteSection_none (R : Represents c cells sections) {sectionName : List UInt8}
    (hname : sectionName ≠ []) (hold : ∃ s ∈ sections, s.name = formatTo sectionName) :
    c.deleteSection sectionName = none := by
  obtain ⟨curr, ⟨d, hd, -, hfound⟩ | ⟨hnone, -⟩⟩ := searchSection_spec R (formatTo sectionName)
  · have R' : Represents { c with
        dcmSection := { c.dcmSection with nodeCurr := curr }
        cSection := some d.2 } cells sections :=
      ⟨⟨R.chain.linked, R.chain.head, R.chain.tail, R.chain.num⟩, R.live, R.contents, R.sorted⟩
    obtain ⟨c', hpop, D⟩ := pop_deleted R' hd
    have hagain : release d.2 c'.objects = none := by
      rw [D.released]
      exact release_again d.2
    simp only [CConfOpt.deleteSection, if_neg hname, hfound, Option.bind_some, hpop,
      hagain, Option.map_none]
  · obtain ⟨s, hs, heq⟩ := hold
    exact absurd heq (hnone s hs)

/-- The section that was deleted is not found any more. -/
theorem Deleted.not_found {c' : CConfOpt} {p : Nat} (D : Deleted p c c' sections) :
    ∃ m', c'.searchSection (objectAt c.objects p).name = some (none, m') := by
  obtain ⟨cells', R'⟩ := D.others
  obtain ⟨curr, ⟨d, hd, hname, -⟩ | ⟨-, hfound⟩⟩ :=
    searchSection_spec R' (objectAt c.objects p).name
  · have hmem := R'.mem hd
    rw [List.mem_filter] at hmem
    exact absurd hname (of_decide_eq_true hmem.2)
  · exact ⟨_, hfound⟩

end Sections

/-- No section of any configuration is deleted as it should be. -/
theorem deleteSection_never (c : CConfOpt) (cells : List (Nat × Nat)) (sections : List CSection)
    (sectionName : List UInt8) (R : Represents c cells sections)
    (hold : ∃ s ∈ sections, s.name = formatTo sectionName) :
    ¬ ∃ c' p, c.deleteSection sectionName = some (1, c') ∧
      (objectAt c.objects p).name = formatTo sectionName ∧ Deleted p c c' sections := by
  rintro ⟨c', p, hrun, -, -⟩
  by_cases hname : sectionName = []
  · rw [CConfOpt.deleteSection, if_pos hname] at hrun
    have hzero : (0 : Int) = 1 := congrArg Prod.fst (Option.some.inj hrun)
    cases hzero
  · rw [deleteSection_none R hname hold] at hrun
    cases hrun

/-- Of two sections, the first. -/
theorem deleteSection_never_two : ∃ c,
    (CConfOpt.initial.selectSection [97]).bind (CConfOpt.selectSection [98]) = some c ∧
    ¬ ∃ c' p, c.deleteSection [97] = some (1, c') ∧ (objectAt c.objects p).name = formatTo [97] ∧
      Deleted p c c' [newSection [97], newSection [98]] := by
  obtain ⟨c₁, cells₁, hfirst, R₁, -⟩ := selectSection_represents initial_represents [97]
  obtain ⟨c₂, cells₂, hsecond, R₂, -⟩ := selectSection_represents R₁ [98]
  refine ⟨c₂, by rw [hfirst, Option.bind_some, hsecond], ?_⟩
  exact deleteSection_never c₂ cells₂ [newSection [97], newSection [98]] [97] R₂
    ⟨newSection [97], List.mem_cons_self, by decide⟩

/-- The configuration of a file with the line `[a]`. -/
def oneSection : CConfOpt :=
  ⟨[some (newSection [97])], ⟨[some ⟨none, none, 0⟩], []⟩, ⟨some 0, some 0, some 0, 1⟩, some 0⟩

/-- `Pop` releases the section, and then it is released again. -/
theorem delete_releases_twice : CConfOpt.initial.selectSection [97] = some oneSection ∧
    (oneSection.searchSection (formatTo [97])).map Prod.fst = some (some 0) ∧
    (oneSection.pop 0).map CConfOpt.objects = some [none] ∧ release 0 [none] = none ∧
    oneSection.deleteSection [97] = none := by
  decide

end NetmtDeleteSection
