import Mathlib.Data.List.Infix
import Netmt.IniSizes
import Netmt.IniInt
import Netmt.EnumIndex
import Netmt.Lib.Region

/-!
# All values of an enumeration

`iniconfopt.cpp`: `CGetEnumValueArr` copies the values of a section to slots of memory
that was not written before, `CGetValueArr` to the rows of an array. Both take them by
index from a configuration that is read anew. `none` stands for a run that leaves its
memory or does not come to its end.
-/
namespace NetmtEnumExport

open NetmtIniStr NetmtIniConf NetmtIniLookup NetmtIniLoaded NetmtIniSizes

/-- `GetCount(section, "")` -/
def getCount (sectionName : List UInt8) (c : CConfOpt) : Option (Nat × CConfOpt) :=
  if sectionName = [] then some (0, c)
  else if FormatFits 256 sectionName then
    match c.searchSection (formatTo sectionName) with
    | none => (c.addSection (formatTo sectionName)).map fun c => (0, c)
    | some s => some (s.enums.length, { c with cSection := some (formatTo sectionName) })
  else none

/-- `GetValue(section, index, szName, NULL)`: what it puts into `szName[256]`, `none`
where it leaves it alone. -/
def getEnumValue (sectionName : List UInt8) (index : Nat) (c : CConfOpt) :
    Option (Option (List UInt8) × CConfOpt) :=
  if sectionName = [] then some (none, c)
  else if FormatFits 256 sectionName then
    match c.searchSection (formatTo sectionName) with
    | none => (c.addSection (formatTo sectionName)).map fun c => (none, c)
    | some s =>
      match s.enums[index]? with
      | some value =>
        if value.length < 256 then
          some (some value, { c with cSection := some (formatTo sectionName) }) else none
      | none => some (some [], { c with cSection := some (formatTo sectionName) })
  else none

/-- The loop of both: `szName` is cleared, takes a value and is copied. -/
def exportLoop {α : Type} (copy : Nat → List UInt8 → α → Option α) (sectionName : List UInt8) :
    Nat → Nat → CConfOpt → α → Option α
  | 0, _, _, out => some out
  | n + 1, i, c, out =>
    match getEnumValue sectionName i c with
    | none => none
    | some (value, c) => (copy i (value.getD []) out).bind (exportLoop copy sectionName n (i + 1) c)

/-- What `strncpy(_, s, n)` writes. -/
def strncpyBytes (n : Nat) (s : List UInt8) : List UInt8 :=
  s.take n ++ List.replicate (n - s.length) 0

/-- `strncpy(ptemp, szName, max_len - 1)`, where `ptemp` is at the slot of that index. A
size of -1 is too much for any memory. -/
def copySlot {size : Nat} (maxLen : Nat) (i : Nat) (szName : List UInt8) (out : Region size) :
    Option (Region size) :=
  if maxLen = 0 then none else out.store (i * maxLen : Nat) (strncpyBytes (maxLen - 1) szName)

/-- `CGetEnumValueArr`: the result and `*poutput`. The product is an `int`. -/
def cGetEnumValueArr (malloc : (n : Nat) → Option (Region n)) (junk text sectionName : List UInt8)
    (maxLen : Nat) : Option (Nat × Option (List UInt8)) :=
  match (readFromFile junk text).bind (getCount sectionName) with
  | none => none
  | some (ncount, c) =>
    if ncount = 0 then some (0, none)
    else if ncount * maxLen ≤ 2147483647 then
      match malloc (ncount * maxLen) with
      | none => none
      | some fresh =>
        (exportLoop (copySlot maxLen) sectionName ncount 0 c fresh).map fun out =>
          (ncount, some out.bytes)
    else none

/-- `strcpy(outarr[i], szName)` -/
def copyRow (i : Nat) (szName : List UInt8) (out : Region 20000) : Option (Region 20000) :=
  out.store (200 * i : Nat) (szName ++ [0])

/-- `CGetValueArr`: the result and `outarr[100][200]`. -/
def cGetValueArr (junk text sectionName : List UInt8) (outarr : Region 20000) :
    Option (Nat × Region 20000) :=
  match (readFromFile junk text).bind (getCount sectionName) with
  | none => none
  | some (ncount, c) => (exportLoop copyRow sectionName ncount 0 c outarr).map fun out =>
    (ncount, out)

/-! ## What they are for -/

/-- The values of a section, in their order. -/
def values (sectionName : List UInt8) (c : CConfOpt) : List (List UInt8) :=
  ((c.searchSection (formatTo sectionName)).map CSection.enums).getD []

/-- Each slot begins with its value, cut to the slot, and a NUL. -/
def SlotsHold (maxLen : Nat) (vs : List (List UInt8)) (mem : List UInt8) : Prop :=
  ∀ i v, vs[i]? = some v → v.take (maxLen - 1) ++ [0] <+: Region.slice (i * maxLen) maxLen mem

/-- The number of values, and memory with them where there are any. -/
def Exported (maxLen : Nat) (vs : List (List UInt8)) (result : Nat × Option (List UInt8)) : Prop :=
  result.1 = vs.length ∧ (vs ≠ [] → ∃ mem, result.2 = some mem ∧ SlotsHold maxLen vs mem)

/-- The string at the beginning of each row is its value. -/
def RowsHold (vs : List (List UInt8)) (mem : List UInt8) : Prop :=
  ∀ i v, vs[i]? = some v → v ++ [0] <+: mem.drop (200 * i)

/-- A section that can be looked up; without a name there must be no values. -/
def Found (sectionName : List UInt8) (vs : List (List UInt8)) : Prop :=
  if sectionName = [] then vs = [] else FormatFits 256 sectionName

/-- The size is an `int` and can be had, and each value leaves `strncpy` room for a NUL, or
the last byte of its slot is one. -/
def SlotsFit (malloc : (n : Nat) → Option (Region n)) (maxLen : Nat)
    (vs : List (List UInt8)) : Prop :=
  vs = [] ∨ vs.length * maxLen ≤ 2147483647 ∧ ∃ fresh, malloc (vs.length * maxLen) = some fresh ∧
    ∀ i v, vs[i]? = some v → v.length + 1 < maxLen ∨
    fresh.bytes[i * maxLen + (maxLen - 1)]? = some 0

/-- At most 100 values, and each fits its row, or is the last with a row behind it, or
ends as the next value reads. -/
def RowsFit (vs : List (List UInt8)) : Prop :=
  vs.length ≤ 100 ∧ ∀ i v, vs[i]? = some v →
    v.length ≤ 199 ∨ (i + 1 = vs.length ∧ i < 99) ∨ vs[i + 1]? = some (v.drop 200)

/-! ## Counting and looking up -/

section Lookup

variable {sectionName : List UInt8} {c : CConfOpt}

theorem values_some {s : CSection} (h : c.searchSection (formatTo sectionName) = some s) :
    values sectionName c = s.enums := by
  rw [values, h]
  rfl

theorem values_none (h : c.searchSection (formatTo sectionName) = none) :
    values sectionName c = [] := by
  rw [values, h]
  rfl

/-- `GetCount` gives the number of values, and leaves them where there are any. -/
theorem getCount_spec (hfits : FormatFits 256 sectionName) (c : CConfOpt) : ∃ c',
    getCount sectionName c = some ((values sectionName c).length, c') ∧
      (values sectionName c ≠ [] → values sectionName c' = values sectionName c) := by
  rw [getCount, if_neg hfits.ne_nil, if_pos hfits]
  cases hsearch : c.searchSection (formatTo sectionName) with
  | none =>
    obtain ⟨c', hadd, -⟩ := addSection_isSome (formatTo sectionName) c
    rw [values_none hsearch]
    exact ⟨c', congrArg (Option.map _) hadd, fun h => absurd rfl h⟩
  | some s =>
    rw [values_some hsearch]
    refine ⟨_, rfl, fun _ => ?_⟩
    exact values_some hsearch

/-- An index below the number gives the value there. -/
theorem getEnumValue_spec (hfits : FormatFits 256 sectionName) {i : Nat} {v : List UInt8}
    (hv : (values sectionName c)[i]? = some v) (hlen : v.length ≤ 255) : ∃ c',
    getEnumValue sectionName i c = some (some v, c') ∧
    values sectionName c' = values sectionName c := by
  rw [getEnumValue, if_neg hfits.ne_nil, if_pos hfits]
  cases hsearch : c.searchSection (formatTo sectionName) with
  | none =>
    rw [values_none hsearch] at hv
    cases hv
  | some s =>
    rw [values_some hsearch] at hv ⊢
    have hsearch' : ({ c with cSection := some (formatTo sectionName) } : CConfOpt).searchSection
        (formatTo sectionName) = some s := hsearch
    refine ⟨_, ?_, values_some hsearch'⟩
    simp only [hv]
    exact if_pos (Nat.lt_succ_of_le hlen)

/-- Copy the strings of a list, from an index on. -/
def copyAll {α : Type} (copy : Nat → List UInt8 → α → Option α) :
    Nat → List (List UInt8) → α → Option α
  | _, [], out => some out
  | i, v :: vs, out => (copy i v out).bind (copyAll copy (i + 1) vs)

/-- The loop copies the values that are left. -/
theorem exportLoop_values {α : Type} (copy : Nat → List UInt8 → α → Option α)
    (hfits : FormatFits 256 sectionName) {vs : List (List UInt8)} {i : Nat}
    (hvs : (values sectionName c).drop i = vs) (hshort : ∀ v ∈ vs, v.length ≤ 255) (out : α) :
    exportLoop copy sectionName vs.length i c out = copyAll copy i vs out := by
  induction vs generalizing i c out with
  | nil => rfl
  | cons v vs ih =>
    have hv : (values sectionName c)[i]? = some v := by
      rw [← List.head?_drop, hvs]
      rfl
    obtain ⟨c', hget, hkept⟩ := getEnumValue_spec hfits hv (hshort v List.mem_cons_self)
    have hrest : (values sectionName c').drop (i + 1) = vs := by
      rw [hkept, ← List.tail_drop, hvs]
      rfl
    rw [List.length_cons, exportLoop, hget, copyAll]
    change (copy i v out).bind _ = _
    refine congrArg (Option.bind _) (funext fun out => ?_)
    exact ih hrest (fun w hw => hshort w (List.mem_cons_of_mem _ hw)) out

end Lookup

/-! ## Slots -/

section Slots

variable {size maxLen : Nat}

theorem length_strncpyBytes (n : Nat) (s : List UInt8) : (strncpyBytes n s).length = n := by
  rw [strncpyBytes, List.length_append, List.length_take, List.length_replicate]
  omega

/-- What one copy writes. The last byte of a slot is never written. -/
structure Wrote (maxLen i : Nat) (v mem mem' : List UInt8) : Prop where
  slot : Region.slice (i * maxLen) (maxLen - 1) mem' = strncpyBytes (maxLen - 1) v
  others : ∀ j, j ≠ i →
    Region.slice (j * maxLen) (maxLen - 1) mem' = Region.slice (j * maxLen) (maxLen - 1) mem
  last : ∀ j : Nat, mem'[j * maxLen + (maxLen - 1)]? = mem[j * maxLen + (maxLen - 1)]?

/-- A slot in front of another ends in front of it. -/
theorem slot_before {i j : Nat} (maxLen : Nat) (h : i < j) : i * maxLen + maxLen ≤ j * maxLen := by
  have hmul := Nat.mul_le_mul_right maxLen (Nat.succ_le_of_lt h)
  rwa [Nat.succ_mul] at hmul

theorem copySlot_spec (hpos : 1 ≤ maxLen) {i : Nat} (v : List UInt8) (out : Region size)
    (hin : (i + 1) * maxLen ≤ size) :
    ∃ out', copySlot maxLen i v out = some out' ∧ Wrote maxLen i v out.bytes out'.bytes := by
  have hlen := length_strncpyBytes (maxLen - 1) v
  rw [Nat.succ_mul] at hin
  have hroom : i * maxLen + (strncpyBytes (maxLen - 1) v).length ≤ out.bytes.length := by
    rw [hlen, out.length_bytes]
    omega
  refine ⟨out.put (i * maxLen) (strncpyBytes (maxLen - 1) v), ?_, ?_, fun j hj => ?_, fun j => ?_⟩
  · rw [copySlot, if_neg (by omega)]
    exact Region.store_eq out _ _ (by rw [hlen]; omega)
  · have hslot := Region.slice_patch_same (i * maxLen) (maxLen - 1) _ out.bytes hroom (by rw [hlen])
    rwa [List.take_of_length_le (by rw [hlen])] at hslot
  · refine Region.slice_patch_other _ _ _ _ _ hroom ?_
    rw [hlen]
    rcases Nat.lt_or_gt_of_ne hj with hlt | hgt
    · have hbefore := slot_before maxLen hlt
      omega
    · have hbefore := slot_before maxLen hgt
      omega
  · refine (Region.getElem?_patch _ _ _ hroom _).trans ?_
    rw [hlen]
    rcases Nat.lt_or_ge j i with hlt | hge
    · have hbefore := slot_before maxLen hlt
      rw [if_pos (by omega)]
    · have hbehind := Nat.mul_le_mul_right maxLen hge
      rw [if_neg (by omega), if_neg (by omega)]

/-- All copies from an index on. -/
theorem copyAll_slots (hpos : 1 ≤ maxLen) (vs : List (List UInt8)) (i : Nat) (out : Region size)
    (hin : (i + vs.length) * maxLen ≤ size) :
    ∃ out', copyAll (copySlot maxLen) i vs out = some out' ∧
      (∀ (j : Nat) v, vs[j]? = some v →
        Region.slice ((i + j) * maxLen) (maxLen - 1) out'.bytes = strncpyBytes (maxLen - 1) v) ∧
      (∀ j, j < i → Region.slice (j * maxLen) (maxLen - 1) out'.bytes =
        Region.slice (j * maxLen) (maxLen - 1) out.bytes) ∧
      ∀ j : Nat, out'.bytes[j * maxLen + (maxLen - 1)]? =
        out.bytes[j * maxLen + (maxLen - 1)]? := by
  induction vs generalizing i out with
  | nil => exact ⟨out, rfl, fun j v hv => absurd hv (by simp), fun _ _ => rfl, fun _ => rfl⟩
  | cons v vs ih =>
    rw [List.length_cons] at hin
    have hfirst : (i + 1) * maxLen ≤ size := (Nat.mul_le_mul_right maxLen (by omega)).trans hin
    obtain ⟨out₁, hcopy, W⟩ := copySlot_spec hpos v out hfirst
    obtain ⟨out', hrest, hslots, hkept, hlast⟩ := ih (i + 1) out₁ (by
      rw [Nat.add_right_comm]
      exact hin)
    refine ⟨out', ?_, fun j w hw => ?_, fun j hj => ?_, fun j => ?_⟩
    · rw [copyAll, hcopy]
      exact hrest
    · cases j with
      | zero =>
        obtain rfl := Option.some.inj hw
        exact (hkept i (Nat.lt_succ_self i)).trans W.slot
      | succ j =>
        rw [show i + (j + 1) = i + 1 + j by omega]
        exact hslots j w hw
    · exact (hkept j (by omega)).trans (W.others j (by omega))
    · exact (hlast j).trans (W.last j)

/-- A slot holds its value when there is room for a NUL, and when it ends in one. -/
theorem slot_holds_iff {mem v : List UInt8} {off n : Nat} {last : UInt8}
    (hslot : Region.slice off n mem = strncpyBytes n v) (hlast : mem[off + n]? = some last) :
    v.take n ++ [0] <+: Region.slice off (n + 1) mem ↔ v.length < n ∨ last = 0 := by
  have hsplit : Region.slice off (n + 1) mem = v.take n ++
      (List.replicate (n - v.length) 0 ++ [last]) := by
    rw [← List.append_assoc, ← strncpyBytes, ← hslot, Region.slice, Region.slice, List.take_add_one,
      List.getElem?_drop, hlast]
    rfl
  rw [hsplit, List.prefix_append_right_inj]
  by_cases hlen : v.length < n
  · refine iff_of_true ?_ (.inl hlen)
    obtain ⟨k, hk⟩ := Nat.exists_eq_succ_of_ne_zero (Nat.sub_ne_zero_of_lt hlen)
    rw [hk, List.replicate_succ]
    exact List.prefix_append [0] _
  · rw [Nat.sub_eq_zero_of_le (Nat.le_of_not_lt hlen), List.replicate_zero, List.nil_append]
    constructor
    · exact fun h => .inr (List.head_eq_of_cons_eq (h.eq_of_length rfl)).symm
    · exact fun h => h.elim (fun h => absurd h hlen) fun h => h ▸ List.prefix_rfl

/-- The slots hold their values for just these values and this memory. -/
theorem slots_iff (hpos : 1 ≤ maxLen) {vs : List (List UInt8)}
    (fresh : Region (vs.length * maxLen)) :
    (∃ out, copyAll (copySlot maxLen) 0 vs fresh = some out ∧ SlotsHold maxLen vs out.bytes) ↔
      ∀ (i : Nat) (v : List UInt8), vs[i]? = some v →
        v.length + 1 < maxLen ∨ fresh.bytes[i * maxLen + (maxLen - 1)]? = some 0 := by
  obtain ⟨out, hcopy, hslots, -, hlast⟩ := copyAll_slots hpos vs 0 fresh
    (by rw [Nat.zero_add])
  have hone : (∃ out, copyAll (copySlot maxLen) 0 vs fresh = some out ∧
    SlotsHold maxLen vs out.bytes) ↔
      SlotsHold maxLen vs out.bytes := by
    rw [hcopy]
    constructor
    · rintro ⟨out', hout, h⟩
      exact Option.some.inj hout ▸ h
    · exact fun h => ⟨out, rfl, h⟩
  rw [hone]
  refine forall_congr' fun i => forall_congr' fun v => imp_congr_right fun hv => ?_
  have hslot := hslots i v hv
  rw [Nat.zero_add] at hslot
  have hi := slot_before maxLen (List.getElem?_eq_some_iff.mp hv).1
  obtain ⟨last, hbyte⟩ : ∃ last, out.bytes[i * maxLen + (maxLen - 1)]? = some last :=
    ⟨_, List.getElem?_eq_getElem (by rw [out.length_bytes]; omega)⟩
  have hholds := slot_holds_iff hslot hbyte
  rw [Nat.sub_add_cancel hpos] at hholds
  rw [hholds, ← hlast i, hbyte, Option.some.injEq]
  exact or_congr_left (by omega)

end Slots

/-! ## Rows -/

section Rows

/-- Only one string lies at a place. -/
theorem terminated_unique {s t b : List UInt8} (hs : 0 ∉ s) (ht : 0 ∉ t) (h : s ++ [0] <+: b)
    (h' : t ++ [0] <+: b) : s = t := by
  have hfront : ∀ {s : List UInt8}, 0 ∉ s → s ++ [0] <+: b → b.takeWhile (· ≠ 0) = s := by
    rintro s hs ⟨rest, rfl⟩
    rw [List.append_assoc]
    exact takeWhile_line hs rest
  exact (hfront hs h).symm.trans (hfront ht h')

/-- A copy that stays in the array begins at its row and leaves the rows in front. -/
theorem copyRow_cases (i : Nat) (v : List UInt8) (out : Region 20000) :
    (∃ out', copyRow i v out = some out' ∧ 200 * i + v.length < 20000 ∧
      out'.bytes.take (200 * i) = out.bytes.take (200 * i) ∧
      v ++ [0] <+: out'.bytes.drop (200 * i)) ∨
    (copyRow i v out = none ∧ 20000 ≤ 200 * i + v.length) := by
  have hlen : (v ++ [0]).length = v.length + 1 := List.length_append
  by_cases hin : 200 * i + v.length < 20000
  · refine .inl ⟨out.put (200 * i) (v ++ [0]), ?_, hin, ?_⟩
    · exact Region.store_eq out _ _ (by omega)
    · have hfront : (out.bytes.take (200 * i)).length = 200 * i := by
        rw [List.length_take, out.length_bytes]
        omega
      change (Region.patch _ _ _).take _ = _ ∧ _ <+: (Region.patch _ _ _).drop _
      rw [Region.patch_eq _ _ _ (by rw [hlen, out.length_bytes]; omega), List.append_assoc]
      refine ⟨List.take_left' hfront, ?_⟩
      rw [List.drop_left' hfront]
      exact List.prefix_append _ _
  · refine .inr ⟨?_, Nat.le_of_not_lt hin⟩
    rw [copyRow, Region.store, if_neg]
    rw [hlen]
    omega

/-- What all copies from a row on leave: the rows in front of it, the front of each string,
and all of the last. -/
structure Rows (i : Nat) (vs : List (List UInt8)) (mem mem' : List UInt8) : Prop where
  inside : ∀ (j : Nat) v, vs[j]? = some v → 200 * (i + j) + v.length < 20000
  before : mem'.take (200 * i) = mem.take (200 * i)
  front : ∀ (j : Nat) v, vs[j]? = some v → (v ++ [0]).take 200 <+: mem'.drop (200 * (i + j))
  last : ∀ (j : Nat) v, vs[j]? = some v → j + 1 = vs.length → v ++ [0] <+: mem'.drop (200 * (i + j))

/-- One row, and the rows behind it, which are written after it. -/
theorem Rows.cons {i : Nat} {v : List UInt8} {vs : List (List UInt8)} {mem mem₁ mem' : List UInt8}
    (hin : 200 * i + v.length < 20000) (hbefore : mem₁.take (200 * i) = mem.take (200 * i))
    (hfront : v ++ [0] <+: mem₁.drop (200 * i)) (R : Rows (i + 1) vs mem₁ mem')
    (hend : vs = [] → mem' = mem₁) :
    Rows i (v :: vs) mem mem' := by
  have hrow : (v ++ [0]).take 200 <+: mem'.drop (200 * i) := by
    have htake : (mem'.drop (200 * i)).take 200 = (mem₁.drop (200 * i)).take 200 := by
      have hkept := congrArg (List.drop (200 * i)) R.before
      rw [List.drop_take, List.drop_take] at hkept
      rwa [show 200 * (i + 1) - 200 * i = 200 by omega] at hkept
    have hcut := hfront.take 200
    rw [← htake] at hcut
    exact hcut.trans (List.take_prefix _ _)
  refine ⟨fun j w hw => ?_, ?_, fun j w hw => ?_, fun j w hw hlast => ?_⟩
  · cases j with
    | zero =>
      obtain rfl := Option.some.inj hw
      exact hin
    | succ j =>
      have hinside := R.inside j w hw
      omega
  · have hkept := congrArg (List.take (200 * i)) R.before
    rw [List.take_take, List.take_take, Nat.min_eq_left (by omega)] at hkept
    exact hkept.trans hbefore
  · cases j with
    | zero =>
      obtain rfl := Option.some.inj hw
      exact hrow
    | succ j =>
      rw [show i + (j + 1) = i + 1 + j by omega]
      exact R.front j w hw
  · cases j with
    | zero =>
      obtain rfl := Option.some.inj hw
      rw [hend (List.eq_nil_of_length_eq_zero (by simpa using hlast.symm))]
      exact hfront
    | succ j =>
      rw [show i + (j + 1) = i + 1 + j by omega]
      exact R.last j w hw (by simpa using hlast)

theorem copyAll_rows (vs : List (List UInt8)) (i : Nat) (out : Region 20000) :
    (∃ out', copyAll copyRow i vs out = some out' ∧ Rows i vs out.bytes out'.bytes) ∨
    (copyAll copyRow i vs out = none ∧
      ∃ (j : Nat) (v : List UInt8), vs[j]? = some v ∧ 20000 ≤ 200 * (i + j) + v.length) := by
  induction vs generalizing i out with
  | nil =>
    have hnone : ∀ (j : Nat) (v : List UInt8), ([] : List (List UInt8))[j]? ≠ some v := by simp
    exact .inl ⟨out, rfl, fun j v hv => absurd hv (hnone j v), rfl,
      fun j v hv => absurd hv (hnone j v),
      fun j v hv => absurd hv (hnone j v)⟩
  | cons v vs ih =>
    rcases copyRow_cases i v out with ⟨out₁, hcopy, hin, hbefore, hfront⟩ | ⟨hcopy, hout⟩
    · rcases ih (i + 1) out₁ with ⟨out', hrest, R⟩ | ⟨hrest, j, w, hw, hout⟩
      · refine .inl ⟨out', ?_, .cons hin hbefore hfront R fun hnil => ?_⟩
        · rw [copyAll, hcopy]
          exact hrest
        · subst hnil
          obtain rfl := Option.some.inj hrest
          rfl
      · refine .inr ⟨?_, j + 1, w, hw, by omega⟩
        rw [copyAll, hcopy]
        exact hrest
    · refine .inr ⟨?_, 0, v, rfl, hout⟩
      rw [copyAll, hcopy]
      rfl

/-- A long value that reads back goes on as the next value. -/
theorem row_goes_on {v w mem : List UInt8} {i : Nat} (hv : 0 ∉ v) (hw : 0 ∉ w)
    (hlong : 200 ≤ v.length) (hrow : v ++ [0] <+: mem.drop (200 * i))
    (hnext : w ++ [0] <+: mem.drop (200 * (i + 1))) :
    v.drop 200 = w := by
  have hrest : v.drop 200 ++ [0] <+: mem.drop (200 * (i + 1)) := by
    have hcut := hrow.drop 200
    rwa [List.drop_drop, List.drop_append_of_le_length hlong, ← Nat.mul_succ] at hcut
  exact terminated_unique (fun hmem => hv (List.mem_of_mem_drop hmem)) hw hrest hnext

/-- So a long value is its front and the next row. -/
theorem row_of_next {v mem : List UInt8} {i : Nat} (hlong : 200 ≤ v.length)
    (hfront : (v ++ [0]).take 200 <+: mem.drop (200 * i))
    (hnext : v.drop 200 ++ [0] <+: mem.drop (200 * (i + 1))) : v ++ [0] <+: mem.drop (200 * i) := by
  rw [List.take_append_of_le_length hlong] at hfront
  obtain ⟨tail, htail⟩ := hfront
  have htake : (v.take 200).length = 200 := by
    rw [List.length_take]
    omega
  rw [Nat.mul_succ, ← List.drop_drop, ← htail, List.drop_left' htake] at hnext
  rw [← htail]
  nth_rewrite 1 [← List.take_append_drop 200 v]
  rw [List.append_assoc]
  exact (List.prefix_append_right_inj _).mpr hnext

/-- The copies stay in the array and each row begins with its value for just these values. -/
theorem rows_iff {vs : List (List UInt8)} (hshort : ∀ v ∈ vs, v.length ≤ 255)
    (hnul : ∀ v ∈ vs, 0 ∉ v) (out : Region 20000) :
    (∃ out', copyAll copyRow 0 vs out = some out' ∧ RowsHold vs out'.bytes) ↔ RowsFit vs := by
  have hlen : ∀ {i : Nat} {v : List UInt8}, vs[i]? = some v → v.length ≤ 255 := fun hv =>
    hshort _ (List.mem_of_getElem? hv)
  have hfree : ∀ {i : Nat} {v : List UInt8}, vs[i]? = some v → 0 ∉ v := fun hv =>
    hnul _ (List.mem_of_getElem? hv)
  rcases copyAll_rows vs 0 out with ⟨out', hcopy, R⟩ | ⟨hcopy, j, w, hw, hout⟩
  · constructor
    · rintro ⟨out'', hcopy', hrows⟩
      rw [hcopy] at hcopy'
      obtain rfl := Option.some.inj hcopy'
      refine ⟨Nat.le_of_not_lt fun hmany => ?_, fun i v hv => ?_⟩
      · have hinside := R.inside 100 _ (List.getElem?_eq_getElem hmany)
        omega
      · have hinside := R.inside i v hv
        have hi := (List.getElem?_eq_some_iff.mp hv).1
        by_cases hfits : v.length ≤ 199
        · exact .inl hfits
        · refine .inr ?_
          by_cases hend : i + 1 = vs.length
          · exact .inl ⟨hend, by omega⟩
          · obtain ⟨w, hw⟩ : ∃ w, vs[i + 1]? = some w := ⟨_, List.getElem?_eq_getElem (by omega)⟩
            have hnext :=
              row_goes_on (hfree hv) (hfree hw) (by omega) (hrows i v hv) (hrows (i + 1) w hw)
            exact .inr (hw.trans (congrArg some hnext.symm))
    · rintro ⟨-, hall⟩
      refine ⟨out', hcopy, fun i v hv => ?_⟩
      have hshown : ∀ {i : Nat} {v : List UInt8}, vs[i]? = some v → v.length ≤ 199 →
          v ++ [0] <+: out'.bytes.drop (200 * i) := by
        intro i v hv hfits
        have hfront := R.front i v hv
        have hlen' : (v ++ [0]).length ≤ 200 := by
          rw [List.length_append, List.length_singleton]
          omega
        rwa [Nat.zero_add, List.take_of_length_le hlen'] at hfront
      by_cases hfits : v.length ≤ 199
      · exact hshown hv hfits
      · rcases (hall i v hv).resolve_left hfits with ⟨hend, -⟩ | hnext
        · have hlast := R.last i v hv hend
          rwa [Nat.zero_add] at hlast
        · have hlong := hlen hv
          have hfront := R.front i v hv
          rw [Nat.zero_add] at hfront
          exact row_of_next (by omega) hfront (hshown hnext (by rw [List.length_drop]; omega))
  · refine iff_of_false (fun h => ?_) fun h => ?_
    · obtain ⟨out', hcopy', -⟩ := h
      rw [hcopy] at hcopy'
      cases hcopy'
    · have hj := (List.getElem?_eq_some_iff.mp hw).1
      have hwlen := hlen hw
      have hmany := h.1
      rcases h.2 j w hw with hfits | ⟨-, hj'⟩ | hnext
      · omega
      · omega
      · have hj'' := (List.getElem?_eq_some_iff.mp hnext).1
        omega

end Rows

/-! ## The two exports -/

section Export

variable {junk text sectionName : List UInt8} {c : CConfOpt}

theorem mem_values {P : List UInt8 → Prop} (h : EnumsAll P c) :
    ∀ v ∈ values sectionName c, P v := by
  cases hsearch : c.searchSection (formatTo sectionName) with
  | none =>
    rw [values_none hsearch]
    exact fun v hv => absurd hv List.not_mem_nil
  | some s =>
    rw [values_some hsearch]
    exact h s (Keyed.lookup_mem _ hsearch).1

/-- No value is counted twice. -/
theorem nodup_values (hload : readFromFile junk text = some c) : (values sectionName c).Nodup := by
  cases hsearch : c.searchSection (formatTo sectionName) with
  | none =>
    rw [values_none hsearch]
    exact .nil
  | some s =>
    rw [values_some hsearch]
    exact readFromFile_distinct hload s (Keyed.lookup_mem _ hsearch).1

theorem short_values (sectionName : List UInt8) (hjunk : junk.length = 256)
    (hload : readFromFile junk text = some c) :
    ∀ v ∈ values sectionName c, v.length ≤ 255 :=
  mem_values (P := fun v => v.length ≤ 255) fun s hs => (readFromFile_short hjunk hload s hs).enums

/-- What is counted and given by index on the chains of `EnumIndex` is the same. -/
theorem getEnumValue_agrees {d : NetmtEnumIndex.CConfOpt} (hfits : FormatFits 256 sectionName)
    (hshort : ∀ v ∈ values sectionName c, v.length ≤ 255)
    (h : NetmtEnumIndex.Shows d (formatTo sectionName) (values sectionName c)) :
    (∃ n c' d', getCount sectionName c = some (n, c') ∧
      d.getCount sectionName 0 (some []) = some ((n : Int), d')) ∧
    ∀ (i : Nat) (v : List UInt8), (values sectionName c)[i]? = some v →
      ∃ c' d', getEnumValue sectionName i c = some (some v, c') ∧
        d.getValue sectionName i none = some (1, some v, d') := by
  constructor
  · obtain ⟨c', hcount, -⟩ := getCount_spec hfits c
    obtain ⟨d', hchain, -⟩ := NetmtEnumIndex.getCount_shows 0 (some []) hfits h
    exact ⟨_, c', d', hcount, hchain⟩
  · intro i v hv
    obtain ⟨c', hget, -⟩ := getEnumValue_spec hfits hv (hshort v (List.mem_of_getElem? hv))
    obtain ⟨r, d', value, hchain, -, hin, -⟩ := NetmtEnumIndex.getValue_shows i none hfits h
    obtain ⟨rfl, rfl⟩ := hin v (Int.natCast_nonneg i) hv
    exact ⟨c', d', hget, hchain⟩

/-- How many values there are, and that they can be copied by index. -/
theorem export_values {α : Type} (copy : Nat → List UInt8 → α → Option α)
    (hfits : FormatFits 256 sectionName)
    (hshort : ∀ v ∈ values sectionName c, v.length ≤ 255) : ∃ c',
    getCount sectionName c = some ((values sectionName c).length, c') ∧ ∀ out : α,
      exportLoop copy sectionName (values sectionName c).length 0 c' out =
        copyAll copy 0 (values sectionName c) out := by
  obtain ⟨c', hcount, hkept⟩ := getCount_spec hfits c
  refine ⟨c', hcount, fun out => ?_⟩
  by_cases hnil : values sectionName c = []
  · rw [hnil]
    rfl
  · exact exportLoop_values copy hfits (by rw [hkept hnil, List.drop_zero]) hshort out

theorem getCount_unnamed (h : sectionName = []) (c : CConfOpt) :
    getCount sectionName c = some (0, c) := by
  rw [getCount, if_pos h]

theorem getCount_unfit (h : sectionName ≠ [])
    (hfits : ¬ FormatFits 256 sectionName) (c : CConfOpt) :
    getCount sectionName c = none := by
  rw [getCount, if_neg h, if_neg hfits]

theorem cGetEnumValueArr_iff (malloc : (n : Nat) → Option (Region n)) (hjunk : junk.length = 256)
    (hload : readFromFile junk text = some c) {maxLen : Nat} (hpos : 1 ≤ maxLen) :
    (∃ result, cGetEnumValueArr malloc junk text sectionName maxLen = some result ∧
      Exported maxLen (values sectionName c) result) ↔
    Found sectionName (values sectionName c) ∧ SlotsFit malloc maxLen (values sectionName c) := by
  have hshort := short_values sectionName hjunk hload
  rw [cGetEnumValueArr, hload, Option.bind_some, Found]
  by_cases hname : sectionName = []
  · rw [getCount_unnamed hname, if_pos hname]
    constructor
    · rintro ⟨result, hresult, hnum, -⟩
      obtain rfl := Option.some.inj hresult
      have hnil := List.eq_nil_of_length_eq_zero hnum.symm
      exact ⟨hnil, .inl hnil⟩
    · rintro ⟨hnil, -⟩
      rw [hnil]
      exact ⟨_, rfl, rfl, fun h => absurd rfl h⟩
  · rw [if_neg hname]
    by_cases hfits : FormatFits 256 sectionName
    · obtain ⟨c', hcount, hloop⟩ := export_values (c := c)
        (@copySlot ((values sectionName c).length * maxLen) maxLen) hfits hshort
      rw [hcount, and_iff_right hfits, SlotsFit]
      generalize values sectionName c = vs at hloop ⊢
      simp only
      by_cases hnil : vs = []
      · subst hnil
        exact iff_of_true ⟨_, rfl, rfl, fun h => absurd rfl h⟩ (.inl rfl)
      · rw [if_neg fun hnum => hnil (List.eq_nil_of_length_eq_zero hnum), or_iff_right hnil]
        by_cases hint : vs.length * maxLen ≤ 2147483647
        · rw [if_pos hint, and_iff_right hint]
          cases hmalloc : malloc (vs.length * maxLen) with
          | none => exact iff_of_false (by simp) (by simp)
          | some fresh =>
            simp only [hloop, Option.some.injEq, exists_eq_left']
            rw [← slots_iff hpos fresh]
            constructor
            · rintro ⟨result, hresult, -, hheld⟩
              obtain ⟨out, hcopy, rfl⟩ := Option.map_eq_some_iff.mp hresult
              obtain ⟨mem, hmem, hslots⟩ := hheld hnil
              exact ⟨out, hcopy, Option.some.inj hmem ▸ hslots⟩
            · rintro ⟨out, hcopy, hslots⟩
              exact ⟨_, congrArg (Option.map _) hcopy, rfl, fun _ => ⟨_, rfl, hslots⟩⟩
        · rw [if_neg hint]
          exact iff_of_false (by simp) fun h => hint h.1
    · rw [getCount_unfit hname hfits]
      exact iff_of_false (by simp) fun h => hfits h.1

theorem cGetValueArr_iff (hjunk : junk.length = 256) (hload : readFromFile junk text = some c)
    (outarr : Region 20000) :
    (∃ result, cGetValueArr junk text sectionName outarr = some result ∧
      result.1 = (values sectionName c).length ∧ RowsHold (values sectionName c) result.2.bytes) ↔
    Found sectionName (values sectionName c) ∧ RowsFit (values sectionName c) := by
  have hshort := short_values sectionName hjunk hload
  have hnul : ∀ v ∈ values sectionName c, 0 ∉ v := mem_values (readFromFile_noNul hload)
  rw [cGetValueArr, hload, Option.bind_some, Found]
  by_cases hname : sectionName = []
  · rw [getCount_unnamed hname, if_pos hname]
    constructor
    · rintro ⟨result, hresult, hnum, -⟩
      obtain rfl := Option.some.inj hresult
      have hnil := List.eq_nil_of_length_eq_zero hnum.symm
      rw [hnil]
      exact ⟨rfl, Nat.zero_le _, fun i v hv => absurd hv (by simp)⟩
    · rintro ⟨hnil, -⟩
      rw [hnil]
      exact ⟨_, rfl, rfl, fun i v hv => absurd hv (by simp)⟩
  · rw [if_neg hname]
    by_cases hfits : FormatFits 256 sectionName
    · obtain ⟨c', hcount, hloop⟩ := export_values (c := c) copyRow hfits hshort
      rw [hcount, and_iff_right hfits, ← rows_iff hshort hnul outarr]
      simp only [hloop]
      constructor
      · rintro ⟨result, hresult, -, hrows⟩
        obtain ⟨out, hcopy, rfl⟩ := Option.map_eq_some_iff.mp hresult
        exact ⟨out, hcopy, hrows⟩
      · rintro ⟨out, hcopy, hrows⟩
        exact ⟨_, congrArg (Option.map _) hcopy, rfl, hrows⟩
    · rw [getCount_unfit hname hfits]
      exact iff_of_false (by simp) fun h => hfits h.1

/-- All values are exported for just these values, sizes and memory, by the one and by the
other. -/
theorem exports_iff (malloc : (n : Nat) → Option (Region n)) (junk : List UInt8)
    (hjunk : junk.length = 256) (text sectionName : List UInt8) (c : CConfOpt)
    (hload : readFromFile junk text = some c) (maxLen : Nat) (hpos : 1 ≤ maxLen)
    (outarr : Region 20000) :
    (values sectionName c).Nodup ∧
    ((∃ result, cGetEnumValueArr malloc junk text sectionName maxLen = some result ∧
      Exported maxLen (values sectionName c) result) ↔
      Found sectionName (values sectionName c) ∧ SlotsFit malloc maxLen (values sectionName c)) ∧
    ((∃ result, cGetValueArr junk text sectionName outarr = some result ∧
      result.1 = (values sectionName c).length ∧ RowsHold (values sectionName c) result.2.bytes) ↔
      Found sectionName (values sectionName c) ∧ RowsFit (values sectionName c)) :=
  ⟨nodup_values hload, cGetEnumValueArr_iff malloc hjunk hload hpos,
    cGetValueArr_iff hjunk hload outarr⟩

/-- Memory with 255 in each byte. -/
def dirty (n : Nat) : Region n := ⟨List.replicate n 255, List.length_replicate⟩

/-- `a` and `bc` under `[s]`, in slots of four bytes and in rows. -/
theorem exports_two :
    (∃ result, cGetEnumValueArr (fun n => some (dirty n)) (List.replicate 256 0)
      [91, 115, 93, 10, 97, 32, 98, 99, 10] [115] 4 = some result ∧
      Exported 4 [[97], [98, 99]] result) ∧
    ∃ result, cGetValueArr (List.replicate 256 0) [91, 115, 93, 10, 97, 32, 98, 99, 10]
      [115] (dirty 20000) =
      some result ∧ result.1 = 2 ∧ RowsHold [[97], [98, 99]] result.2.bytes := by
  have hload : readFromFile (List.replicate 256 0) [91, 115, 93, 10, 97, 32, 98, 99, 10] =
      some ⟨[⟨[115], [], [[97], [98, 99]], 10, []⟩], some [115], [], true, false⟩ := by
    decide
  have hcases : ∀ (i : Nat) (v : List UInt8), [[97], [98, 99]][i]? = some v → v = [97] ∨
      v = [98, 99] := by
    intro i v hv
    simpa using List.mem_of_getElem? hv
  obtain ⟨-, hslots, hrows⟩ := exports_iff (fun n => some (dirty n)) (List.replicate 256 0)
    List.length_replicate _ [115] _ hload 4 (by decide) (dirty 20000)
  refine ⟨hslots.mpr ⟨by unfold Found; decide, .inr ⟨by decide, _, rfl, fun i v hv => .inl ?_⟩⟩,
    hrows.mpr ⟨by unfold Found; decide, by decide, fun i v hv => .inl ?_⟩⟩
  · rcases hcases i v hv with rfl | rfl <;> decide
  · rcases hcases i v hv with rfl | rfl <;> decide

end Export

/-- A value with as many bytes as its slot is not ended, the string of a row with 200 bytes
goes on with the next value, and there is no row for the value behind the hundredth. -/
theorem exports_fail :
    (¬ ∃ result, cGetEnumValueArr (fun n => some (dirty n)) (List.replicate 256 0)
    [91, 115, 93, 10, 97, 10]
      [115] 2 = some result ∧ Exported 2 [[97]] result) ∧
    (∃ c, readFromFile (List.replicate 256 0)
        ([91, 115, 93, 10] ++ List.replicate 200 120 ++ [32, 98, 10]) = some c ∧
      ¬ ∃ result, cGetValueArr (List.replicate 256 0)
          ([91, 115, 93, 10] ++ List.replicate 200 120 ++ [32, 98, 10]) [115]
            (dirty 20000) = some result ∧
        result.1 = (values [115] c).length ∧ RowsHold (values [115] c) result.2.bytes) ∧
    ∃ c, readFromFile (List.replicate 256 0)
        ([91, 115, 93, 10] ++ (List.range 101).flatMap fun n =>
          [UInt8.ofNat (n + 128), 10]) = some c ∧
      ¬ ∃ result, cGetValueArr (List.replicate 256 0)
          ([91, 115, 93, 10] ++ (List.range 101).flatMap fun n => [UInt8.ofNat (n + 128), 10]) [115]
          (dirty 20000) = some result ∧
        result.1 = (values [115] c).length ∧ RowsHold (values [115] c) result.2.bytes := by
  refine ⟨?_, ?_, ?_⟩
  · rintro ⟨result, hresult, -, hheld⟩
    have hrun : cGetEnumValueArr (fun n => some (dirty n)) (List.replicate 256 0)
      [91, 115, 93, 10, 97, 10]
        [115] 2 = some (1, some [97, 255]) := by
      decide +kernel
    obtain rfl := Option.some.inj (hrun.symm.trans hresult)
    obtain ⟨mem, hmem, hslots⟩ := hheld (by decide)
    obtain rfl := Option.some.inj hmem
    exact absurd (hslots 0 [97] rfl) (by decide)
  · have hvalues : (readFromFile (List.replicate 256 0)
        ([91, 115, 93, 10] ++ List.replicate 200 120 ++ [32, 98, 10])).map (values [115]) =
        some [List.replicate 200 120, [98]] := by
      decide +kernel
    obtain ⟨c, hload, hc⟩ := Option.map_eq_some_iff.mp hvalues
    refine ⟨c, hload, fun h => ?_⟩
    have hfit := ((cGetValueArr_iff List.length_replicate hload (dirty 20000)).mp h).2
    rw [hc] at hfit
    rcases hfit.2 0 _ rfl with h | ⟨h, -⟩ | h
    · rw [List.length_replicate] at h
      omega
    · exact absurd h (by decide)
    · exact absurd (Option.some.inj h) (by decide +kernel)
  · have hnum : (readFromFile (List.replicate 256 0)
        ([91, 115, 93, 10] ++ (List.range 101).flatMap fun n => [UInt8.ofNat (n + 128), 10])).map
        (fun c => (values [115] c).length) = some 101 := by
      decide +kernel
    obtain ⟨c, hload, hc⟩ := Option.map_eq_some_iff.mp hnum
    refine ⟨c, hload, fun h => ?_⟩
    have hfit := ((cGetValueArr_iff List.length_replicate hload (dirty 20000)).mp h).2
    have hmany := hfit.1
    omega

end NetmtEnumExport
