import Exploidus.Lib.Pieces
import Exploidus.Net.Ip

/-! Reassembly along runs: when the transport layer is given a datagram, and what it is given. -/
namespace Exploidus.Net
open ByteLayout Pieces Function Finset

/-- A datagram cut into fragments, each of which but the last has a multiple of eight bytes. -/
structure Split where
  key : FragKey
  payload : List UInt8
  count : ℕ
  len : ℕ → ℕ
  two_le : 2 ≤ count
  pos : ∀ i < count, 0 < len i
  aligned : ∀ i, i + 1 < count → 8 ∣ len i
  total : offset len count = payload.length
  fits : payload.length ≤ netbufPayload

/-- A packet that carries fragment `i` of a datagram. -/
structure Packet.IsPiece (p : Packet) (d : Split) (i : ℕ) : Prop where
  lt : i < d.count
  key : p.key = d.key
  place : ((p.flagsOffset &&& 0x1FFF) * 8).toNat = offset d.len i
  more : p.flagsOffset &&& 0x2000 ≠ 0 ↔ i + 1 < d.count
  payload : p.payload = (d.payload.drop (offset d.len i)).take (d.len i)

/-! What one packet does to the slots. -/

namespace FragSlot
variable (t : FragSlot) (more : Bool) (off : UInt16) (n : ℕ)

@[simp] theorem count_buf : (t.count more off n).buf = t.buf := by cases more <;> rfl

@[simp] theorem count_key : (t.count more off n).key = t.key := by cases more <;> rfl

@[simp] theorem count_active : (t.count more off n).active = t.active := by cases more <;> rfl

end FragSlot

namespace Frags
variable {s s' : Frags} {key : FragKey} {i j : ℕ} {t : FragSlot}

def Backed (s : Frags) : Prop := ∀ i < 4, (s.slots i).active = true → (s.slots i).buf.isSome

theorem slot_some {p : FragSlot → Bool} (h : s.slot p = some i) : i < 4 ∧ p (s.slots i) := by
  have hmem := List.mem_of_find?_eq_some h
  exact ⟨List.mem_range.mp hmem, List.find?_some (p := fun i => p (s.slots i)) h⟩

def HasKey (s : Frags) (key : FragKey) (i : ℕ) : Prop :=
  (s.slots i).active = true ∧ (s.slots i).key = key

theorem fragFind_some (h : s.fragFind key = some i) : i < 4 ∧ s.HasKey key i := by
  simpa [HasKey] using slot_some h

theorem fragFind_eq_none (h : ∀ i < 4, ¬ s.HasKey key i) : s.fragFind key = none := by
  cases hfind : s.fragFind key with
  | none => rfl
  | some i =>
    obtain ⟨hi, hkey⟩ := fragFind_some hfind
    exact absurd hkey (h i hi)

theorem fragFind_eq_some (hi : i < 4) (hkey : s.HasKey key i)
    (honly : ∀ j < 4, s.HasKey key j → j = i) : s.fragFind key = some i := by
  cases hfind : s.fragFind key with
  | none =>
    have hno := List.find?_eq_none.mp hfind i (List.mem_range.mpr hi)
    simp [hkey.1, hkey.2] at hno
  | some j =>
    obtain ⟨hj, hkey'⟩ := fragFind_some hfind
    rw [honly j hj hkey']

theorem Backed.set (h : s.Backed) (hslots : s'.slots = update s.slots j t)
    (ht : t.active → t.buf.isSome) : s'.Backed := by
  intro i hi
  rw [hslots]
  by_cases hij : i = j
  · rwa [hij, update_self]
  · rw [update_of_ne hij]
    exact h i hi

theorem hasKey_set_self (hslots : s'.slots = update s.slots j t) :
    s'.HasKey key j ↔ t.active ∧ t.key = key := by
  rw [HasKey, hslots, update_self]

theorem hasKey_set_ne (hslots : s'.slots = update s.slots j t) (hne : i ≠ j) :
    s'.HasKey key i ↔ s.HasKey key i := by
  rw [HasKey, hslots, update_of_ne hne, HasKey]

structure Keeps (s : Frags) (key : FragKey) (s' : Frags) : Prop where
  hasKey : ∀ i, s'.HasKey key i ↔ s.HasKey key i
  slots : ∀ i, s.HasKey key i → s'.slots i = s.slots i
  backed : s'.Backed

theorem keeps_set (hb : s.Backed) (hslots : s'.slots = update s.slots j t)
    (h : ¬ s.HasKey key j) (h' : ¬ (t.active ∧ t.key = key))
    (ht : t.active → t.buf.isSome) : s.Keeps key s' := by
  constructor
  · intro i
    by_cases hij : i = j
    · rw [hij, hasKey_set_self hslots]
      exact iff_of_false h' h
    · exact hasKey_set_ne hslots hij
  · intro i hi
    rw [hslots, update_of_ne]
    rintro rfl
    exact h hi
  · exact hb.set hslots ht

theorem Keeps.trans {s'' : Frags} (h : s.Keeps key s') (h' : s'.Keeps key s'') :
    s.Keeps key s'' := by
  constructor
  · exact fun i => (h'.hasKey i).trans (h.hasKey i)
  · intro i hi
    rw [h'.slots i ((h.hasKey i).mpr hi), h.slots i hi]
  · exact h'.backed

theorem deposit_slots (more : Bool) (off : UInt16) (payload : List UInt8)
    (h : (s.slots i).buf.isSome) : ∃ s' out t, s.deposit i more off payload = some (s', out) ∧
      s'.slots = update s.slots i t ∧ t.key = (s.slots i).key ∧
      (t.active → (s.slots i).active ∧ t.buf.isSome) := by
  obtain ⟨buf, hbuf⟩ := Option.isSome_iff_exists.mp h
  simp only [deposit, hbuf]
  split
  · refine ⟨_, _, _, rfl, update_idem _ _ _, ?_, ?_⟩
    · simp [set]
    · simp
  · refine ⟨_, _, _, rfl, rfl, ?_, ?_⟩
    · simp
    · simp

def HasRoom (s : Frags) (key : FragKey) : Prop :=
  s.fragFind key ≠ none ∨ ∃ i, s.slot (fun t => !t.active) = some i

theorem fragAlloc_free (hfree : s.slot (fun t => !t.active) = some i) (k : FragKey) :
    s.fragAlloc k true = s.occupy k true i := by
  simp only [fragAlloc, hfree]

theorem ip4FragInput_keeps (hb : s.Backed) {k : FragKey} {flags : UInt16} {payload : List UInt8}
    (hroom : ((flags &&& 0x1FFF) * 8).toNat + payload.length ≤ fragMaxPayload → s.HasRoom k)
    (hk : k ≠ key) :
    ∃ s' out, s.ip4FragInput true k flags payload = some (s', out) ∧ s.Keeps key s' := by
  unfold ip4FragInput
  dsimp only
  split
  · exact ⟨s, none, rfl, fun _ => Iff.rfl, fun _ _ => rfl, hb⟩
  rename_i hsize
  cases hfind : s.fragFind k with
  | some i =>
    obtain ⟨hi, hact, hkey⟩ := fragFind_some hfind
    obtain ⟨s', out, t, hdep, hslots, htkey, ht⟩ :=
      deposit_slots (s := s) (decide (flags &&& 0x2000 ≠ 0)) ((flags &&& 0x1FFF) * 8) payload
        (hb i hi hact)
    refine ⟨s', out, hdep, keeps_set hb hslots ?_ ?_ fun h => (ht h).2⟩
    · exact fun h => hk (hkey.symm.trans h.2)
    · exact fun h => hk (hkey.symm.trans (htkey.symm.trans h.2))
  | none =>
    obtain ⟨i, hfree⟩ := (hroom (Nat.le_of_not_lt hsize)).resolve_left (by simp [hfind])
    obtain ⟨hi, hact⟩ := slot_some hfree
    have hkeep : s.Keeps key (s.occupy k true i).1 := by
      apply keeps_set hb rfl
      · simp at hact
        simp [HasKey, hact]
      · simp [hk]
      · simp
    obtain ⟨s', out, t, hdep, hslots, htkey, ht⟩ :=
      deposit_slots (s := (s.occupy k true i).1) (i := i) (decide (flags &&& 0x2000 ≠ 0))
        ((flags &&& 0x1FFF) * 8) payload (by simp [occupy, set])
    have hnew : ((s.occupy k true i).1.slots i).key = k := by simp [occupy, set]
    rw [fragAlloc_free hfree]
    refine ⟨s', out, hdep, hkeep.trans (keeps_set hkeep.backed hslots ?_ ?_ fun h => (ht h).2)⟩
    · exact fun h => hk (hnew.symm.trans h.2)
    · exact fun h => hk (hnew.symm.trans (htkey.symm.trans h.2))

end Frags

/-! A datagram in its slot. -/

structure FragSlot.Holds (t : FragSlot) (d : Split) (arrived : Finset ℕ) : Prop where
  bytes : ∃ buf, t.buf = some buf ∧ ∀ j ∈ arrived, ∀ x, offset d.len j ≤ x →
    x < offset d.len j + d.len j → buf.byte x = d.payload.getD x 0
  filled : t.filled.toNat = ∑ j ∈ arrived, d.len j
  haveLast : t.haveLast = true ↔ d.count - 1 ∈ arrived
  totalLen : t.haveLast = true → t.totalLen.toNat = d.payload.length

variable {d : Split} {arrived : Finset ℕ} {p : Packet} {j : ℕ}

theorem Split.end_le_length (d : Split) (h : j < d.count) :
    offset d.len j + d.len j ≤ d.payload.length := by
  rw [← d.total]
  exact end_le h

namespace Packet.IsPiece

theorem length_payload (h : p.IsPiece d j) : p.payload.length = d.len j := by
  have hend := d.end_le_length h.lt
  rw [h.payload, List.length_take, List.length_drop]
  omega

theorem isFragment (h : p.IsPiece d j) : p.isFragment := by
  rw [Packet.isFragment, decide_eq_true_eq]
  by_cases hmore : j + 1 < d.count
  · exact .inl (h.more.mpr hmore)
  right
  intro h0
  have hplace := h.place
  have htwo := d.two_le
  have hfirst := d.pos 0 (by omega)
  have hle : offset d.len (0 + 1) ≤ offset d.len j := offset_mono (by omega)
  rw [offset_succ, offset_zero] at hle
  rw [h0] at hplace
  simp at hplace
  omega

theorem index_eq {q : Packet} {i : ℕ} (h : p.IsPiece d j) (h' : q.IsPiece d i)
    (hplace : p.flagsOffset &&& 0x1FFF = q.flagsOffset &&& 0x1FFF) : j = i := by
  apply offset_injOn d.pos h.lt h'.lt
  rw [← h.place, ← h'.place, hplace]

theorem byte_patch (h : p.IsPiece d j) (buf : Buf fragMaxPayload) {x : ℕ}
    (hlow : offset d.len j ≤ x) (hhigh : x < offset d.len j + d.len j) :
    (buf.patch ((p.flagsOffset &&& 0x1FFF) * 8).toNat p.payload.length
      fun k => p.payload.getD k 0).byte x = d.payload.getD x 0 := by
  have hend := d.end_le_length h.lt
  have hfits := d.fits
  have hx : x < fragMaxPayload := by
    unfold netbufPayload at hfits
    unfold fragMaxPayload
    omega
  rw [Buf.byte_patch, h.place, h.length_payload, if_pos ⟨hlow, hhigh, hx⟩, h.payload]
  rw [List.getD_eq_getElem?_getD, List.getElem?_take_of_lt (by omega), List.getElem?_drop,
    Nat.add_sub_cancel' hlow, ← List.getD_eq_getElem?_getD]

end Packet.IsPiece

theorem sum_insert_le (hsub : arrived ⊆ range d.count) (hlt : j < d.count)
    (hnew : j ∉ arrived) :
    ∑ i ∈ insert j arrived, d.len i = ∑ i ∈ arrived, d.len i + d.len j ∧
      ∑ i ∈ insert j arrived, d.len i ≤ d.payload.length := by
  constructor
  · rw [sum_insert hnew, Nat.add_comm]
  rw [← d.total]
  apply sum_le_offset
  exact insert_subset (mem_range.mpr hlt) hsub

theorem FragSlot.Holds.count {t : FragSlot} {buf : Buf fragMaxPayload}
    (h : t.Holds d arrived) (age : UInt32) (hbuf : t.buf = some buf) (hsub : arrived ⊆ range d.count)
    (hp : p.IsPiece d j) (hnew : j ∉ arrived) :
    ({ t with
      age := age
      buf := some (buf.patch ((p.flagsOffset &&& 0x1FFF) * 8).toNat p.payload.length
        fun k => p.payload.getD k 0) }.count
      (decide (p.flagsOffset &&& 0x2000 ≠ 0)) ((p.flagsOffset &&& 0x1FFF) * 8)
      p.payload.length).Holds d (insert j arrived) := by
  obtain ⟨hsum, hle⟩ := sum_insert_le hsub hp.lt hnew
  have hfits := d.fits
  have hend := d.end_le_length hp.lt
  unfold netbufPayload at hfits
  have hbytes : ∀ i ∈ insert j arrived, ∀ x, offset d.len i ≤ x → x < offset d.len i + d.len i →
      (buf.patch ((p.flagsOffset &&& 0x1FFF) * 8).toNat p.payload.length
        fun k => p.payload.getD k 0).byte x = d.payload.getD x 0 := by
    intro i hi x hlow hhigh
    by_cases hin : offset d.len j ≤ x ∧ x < offset d.len j + d.len j
    · exact hp.byte_patch buf hin.1 hin.2
    rcases mem_insert.mp hi with rfl | hi
    · exact absurd ⟨hlow, hhigh⟩ hin
    obtain ⟨buf', hbuf', hold⟩ := h.bytes
    obtain rfl : buf = buf' := Option.some.inj (hbuf.symm.trans hbuf')
    rw [Buf.byte_patch, hp.place, hp.length_payload, if_neg (by tauto)]
    exact hold i hi x hlow hhigh
  have hfilled : (t.filled + UInt16.ofNat p.payload.length).toNat =
      ∑ i ∈ insert j arrived, d.len i := by
    rw [UInt16.toNat_add, UInt16.toNat_ofNat', h.filled, hp.length_payload]
    omega
  by_cases hmore : j + 1 < d.count
  · have hflag : decide (p.flagsOffset &&& 0x2000 ≠ 0) := decide_eq_true (hp.more.mpr hmore)
    rw [hflag]
    constructor
    · exact ⟨_, rfl, hbytes⟩
    · exact hfilled
    · change t.haveLast ↔ _
      rw [h.haveLast, mem_insert, or_iff_right (by omega)]
    · exact h.totalLen
  have hflag : decide (p.flagsOffset &&& 0x2000 ≠ 0) = false :=
    decide_eq_false fun h => hmore (hp.more.mp h)
  have hlast : d.count - 1 = j := by
    have := hp.lt
    omega
  rw [hflag]
  constructor
  · exact ⟨_, rfl, hbytes⟩
  · exact hfilled
  · simp [FragSlot.count, hlast]
  intro _
  have htotal : d.payload.length = offset d.len j + d.len j := by
    rw [← d.total, ← offset_succ, ← hlast, Nat.sub_add_cancel (by have := d.two_le; omega)]
  change ((p.flagsOffset &&& 0x1FFF) * 8 + UInt16.ofNat p.payload.length).toNat = _
  rw [UInt16.toNat_add, UInt16.toNat_ofNat', hp.length_payload, hp.place]
  omega

theorem FragSlot.Holds.complete_iff {t : FragSlot} (h : t.Holds d arrived)
    (hsub : arrived ⊆ range d.count) :
    (t.haveLast ∧ t.totalLen ≤ t.filled) ↔ arrived = range d.count := by
  rw [← offset_le_sum_iff hsub d.pos, d.total, ← h.filled, UInt16.le_iff_toNat_le]
  constructor
  · rintro ⟨hlast, hle⟩
    rwa [h.totalLen hlast] at hle
  intro hle
  have hall : arrived = range d.count := by
    rwa [← offset_le_sum_iff hsub d.pos, d.total, ← h.filled]
  have hlast : t.haveLast := by
    rw [h.haveLast, hall, mem_range]
    have := d.two_le
    omega
  rw [h.totalLen hlast]
  exact ⟨hlast, hle⟩

theorem FragSlot.Holds.datagram {t : FragSlot} {buf : Buf fragMaxPayload} (h : t.Holds d arrived)
    (hbuf : t.buf = some buf) (hall : arrived = range d.count) :
    (List.range t.totalLen.toNat).map buf.byte = d.payload := by
  have hlast : t.haveLast := by
    rw [h.haveLast, hall, mem_range]
    have := d.two_le
    omega
  obtain ⟨buf', hbuf', hbytes⟩ := h.bytes
  obtain rfl : buf = buf' := Option.some.inj (hbuf.symm.trans hbuf')
  rw [h.totalLen hlast]
  apply List.ext_getElem
  · simp
  intro x hx hx'
  obtain ⟨i, hi, hlow, hhigh⟩ := exists_piece (d.total ▸ hx')
  rw [List.getElem_map, List.getElem_range, hbytes i (by simpa [hall] using hi) x hlow hhigh]
  simp [hx']

structure Frags.Tracks (s : Frags) (d : Split) (arrived : Finset ℕ) : Prop where
  sub : arrived ⊆ range d.count
  backed : s.Backed
  outside : arrived = ∅ ∨ arrived = range d.count → ∀ i < 4, ¬ s.HasKey d.key i
  inside : arrived ≠ ∅ → arrived ≠ range d.count → ∃ i < 4, s.HasKey d.key i ∧
    (s.slots i).Holds d arrived ∧ ∀ j < 4, s.HasKey d.key j → j = i

namespace Frags
variable {s s' : Frags} {i : ℕ}

theorem Tracks.keeps (h : s.Tracks d arrived) (hk : s.Keeps d.key s') : s'.Tracks d arrived := by
  constructor
  · exact h.sub
  · exact hk.backed
  · intro hout i hi hkey
    exact h.outside hout i hi ((hk.hasKey i).mp hkey)
  intro hne hall
  obtain ⟨i, hi, hkey, hholds, honly⟩ := h.inside hne hall
  refine ⟨i, hi, (hk.hasKey i).mpr hkey, ?_, ?_⟩
  · rwa [hk.slots i hkey]
  · exact fun j hj hkey' => honly j hj ((hk.hasKey j).mp hkey')

theorem deposit_piece (hb : s.Backed) (hi : i < 4) (hkey : s.HasKey d.key i)
    (honly : ∀ j < 4, s.HasKey d.key j → j = i) (hholds : (s.slots i).Holds d arrived)
    (hsub : arrived ⊆ range d.count) (hp : p.IsPiece d j) (hnew : j ∉ arrived) :
    ∃ s', s.deposit i (decide (p.flagsOffset &&& 0x2000 ≠ 0)) ((p.flagsOffset &&& 0x1FFF) * 8)
        p.payload = some (s', if insert j arrived = range d.count then some d.payload
          else none) ∧ s'.Tracks d (insert j arrived) := by
  have hsub' := insert_subset (mem_range.mpr hp.lt) hsub
  obtain ⟨buf, hbuf⟩ := Option.isSome_iff_exists.mp (hb i hi hkey.1)
  have hcount := hholds.count s.age hbuf hsub hp hnew
  have hcomplete := hcount.complete_iff hsub'
  simp only [deposit, hbuf]
  generalize ht : FragSlot.count _ _ _ _ = t at *
  have htbuf : t.buf = some (buf.patch ((p.flagsOffset &&& 0x1FFF) * 8).toNat p.payload.length
      fun k => p.payload.getD k 0) := by
    rw [← ht, FragSlot.count_buf]
  have htkey : t.active ∧ t.key = d.key := by
    rwa [← ht, FragSlot.count_active, FragSlot.count_key]
  -- no slot but this one is in use for the datagram
  have hother : ∀ k < 4, k ≠ i → ¬ s.HasKey d.key k := fun k hk hne h => hne (honly k hk h)
  by_cases hall : insert j arrived = range d.count
  · rw [if_pos (hcomplete.mpr hall), if_pos hall, hcount.datagram htbuf hall]
    have hslots : (Frags.fragFree ({ s with age := s.age + 1 }.set i t) i).slots =
        update s.slots i { t with buf := none, active := false } := by
      simp [fragFree, set]
    refine ⟨_, rfl, hsub', hb.set hslots (by simp), fun _ k hk h => ?_, fun _ h => absurd hall h⟩
    by_cases hki : k = i
    · rw [hki, hasKey_set_self hslots] at h
      simp at h
    · exact hother k hk hki ((hasKey_set_ne hslots hki).mp h)
  · rw [if_neg (mt hcomplete.mp hall), if_neg hall]
    have hslots : ({ s with age := s.age + 1 }.set i t).slots = update s.slots i t := rfl
    have hself : ({ s with age := s.age + 1 }.set i t).slots i = t := by
      rw [hslots, update_self]
    refine ⟨_, rfl, hsub', hb.set hslots (by simp [htbuf]), fun h => ?_, fun _ _ => ?_⟩
    · exact absurd h (by simp [hall])
    refine ⟨i, hi, (hasKey_set_self hslots).mpr htkey, hself.symm ▸ hcount, fun k hk h => ?_⟩
    by_contra hki
    exact hother k hk hki ((hasKey_set_ne hslots hki).mp h)

theorem Tracks.piece (h : s.Tracks d arrived) (hroom : s.HasRoom d.key) (hp : p.IsPiece d j)
    (hnew : j ∉ arrived) :
    ∃ s', s.ip4FragInput true d.key p.flagsOffset p.payload =
        some (s', if insert j arrived = range d.count then some d.payload else none) ∧
      s'.Tracks d (insert j arrived) := by
  have hfits := d.fits
  have hend := d.end_le_length hp.lt
  have hsize : ¬ fragMaxPayload < ((p.flagsOffset &&& 0x1FFF) * 8).toNat + p.payload.length := by
    rw [hp.place, hp.length_payload]
    unfold fragMaxPayload netbufPayload at *
    omega
  have hnotall : arrived ≠ range d.count := by
    rintro rfl
    exact hnew (mem_range.mpr hp.lt)
  unfold ip4FragInput
  dsimp only
  rw [if_neg hsize]
  by_cases hempty : arrived = ∅
  · have hnone := fragFind_eq_none (h.outside (.inl hempty))
    obtain ⟨i, hfree⟩ := hroom.resolve_left (by simp [hnone])
    obtain ⟨hi, hact⟩ := slot_some hfree
    rw [hnone, fragAlloc_free hfree]
    have hslots : (s.occupy d.key true i).1.slots = update s.slots i _ := rfl
    have hocc : s.occupy d.key true i = ((s.occupy d.key true i).1, some i) := rfl
    rw [hocc]
    generalize (s.occupy d.key true i).1 = s1 at *
    apply deposit_piece _ hi _ _ _ h.sub hp hnew
    · exact h.backed.set hslots (by simp)
    · exact (hasKey_set_self hslots).mpr ⟨rfl, rfl⟩
    · intro k hk hkey
      by_contra hki
      exact h.outside (.inl hempty) k hk ((hasKey_set_ne hslots hki).mp hkey)
    · rw [hslots, update_self, hempty]
      exact ⟨⟨_, rfl, by simp⟩, by simp, by simp, by simp⟩
  · obtain ⟨i, hi, hkey, hholds, honly⟩ := h.inside hempty hnotall
    rw [fragFind_eq_some hi hkey honly]
    exact deposit_piece h.backed hi hkey honly hholds h.sub hp hnew

/-- A packet whose fragment takes the slot of another datagram. -/
def Evicts (s : Frags) (h : Host) (p : Packet) : Prop :=
  h.Takes p ∧ p.isFragment = true ∧
    ((p.flagsOffset &&& 0x1FFF) * 8).toNat + p.payload.length ≤ fragMaxPayload ∧ ¬ s.HasRoom p.key

theorem Tracks.ip4Input_other {h : Host} (hs : s.Tracks d arrived) (hkey : p.key ≠ d.key)
    (halloc : h.alloc) (hroom : ¬ s.Evicts h p) :
    ∃ s' out, ip4Input s h p = some (s', out) ∧ s'.Tracks d arrived ∧ ∀ x ∈ out, x.key ≠ d.key := by
  have hdispatch : ∀ l, ∀ x ∈ dispatch p.key l, x.key ≠ d.key := by
    intro l x hx
    unfold dispatch at hx
    split at hx
    · obtain rfl := Option.mem_some_iff.mp hx
      exact hkey
    · simp at hx
  unfold ip4Input
  by_cases htake : h.Takes p
  · rw [if_pos htake]
    by_cases hfrag : p.isFragment
    · obtain ⟨s', out, hout, hkeep⟩ := ip4FragInput_keeps hs.backed
        (fun hsize => not_not.mp fun hno => hroom ⟨htake, hfrag, hsize, hno⟩) hkey
      rw [if_pos hfrag, halloc, hout]
      have hs' := hs.keeps hkeep
      cases out with
      | none => exact ⟨s', none, rfl, hs', by simp⟩
      | some full =>
        by_cases hbuf : h.netbuf
        · simp only [hbuf]
          exact ⟨s', _, rfl, hs', hdispatch _⟩
        · simp only [hbuf]
          exact ⟨s', none, rfl, hs', by simp⟩
    · rw [if_neg hfrag]
      exact ⟨s, _, rfl, hs, hdispatch _⟩
  · rw [if_neg htake]
    exact ⟨s, none, rfl, hs, by simp⟩

theorem Tracks.ip4Input_piece {h : Host} (hs : s.Tracks d arrived) (hp : p.IsPiece d j)
    (hnew : j ∉ arrived) (htake : h.Takes p) (halloc : h.alloc) (hbuf : h.netbuf)
    (hproto : d.key.proto = 1 ∨ d.key.proto = 6 ∨ d.key.proto = 17) (hroom : ¬ s.Evicts h p) :
    ∃ s', ip4Input s h p = some (s', if insert j arrived = range d.count then
        some ⟨d.key, d.payload⟩ else none) ∧ s'.Tracks d (insert j arrived) := by
  have hfits := d.fits
  have hend := d.end_le_length hp.lt
  have hsize : ((p.flagsOffset &&& 0x1FFF) * 8).toNat + p.payload.length ≤ fragMaxPayload := by
    rw [hp.place, hp.length_payload]
    unfold fragMaxPayload netbufPayload at *
    omega
  have hfree : s.HasRoom d.key :=
    not_not.mp fun hno => hroom ⟨htake, hp.isFragment, hsize, hp.key ▸ hno⟩
  obtain ⟨s', hout, hs'⟩ := hs.piece hfree hp hnew
  refine ⟨s', ?_, hs'⟩
  rw [ip4Input, if_pos htake, if_pos hp.isFragment, halloc, hp.key, hout]
  by_cases hall : insert j arrived = range d.count
  · simp only [if_pos hall, hbuf, ↓reduceIte]
    rw [List.take_of_length_le hfits, dispatch, if_pos hproto]
  · simp only [if_neg hall]

end Frags

/-! Runs. -/

/-- The packets that arrive, and what the transport protocols are given. -/
def ip4Run : Frags → List (Host × Packet) → Option (Frags × List Delivery)
  | s, [] => some (s, [])
  | s, (h, p) :: rest =>
    match ip4Input s h p with
    | none => none
    | some (s', out) => (ip4Run s' rest).map fun r => (r.1, out.toList ++ r.2)

/-- The payloads given to the transport protocol of a datagram. -/
def delivered (key : FragKey) (s : Frags) (arrivals : List (Host × Packet)) :
    Option (List (List UInt8)) :=
  (ip4Run s arrivals).map fun r => (r.2.filter fun x => x.key = key).map Delivery.payload

/-- No packet of a run takes the slot of another datagram. -/
def NoEviction : Frags → List (Host × Packet) → Prop
  | _, [] => True
  | s, (h, p) :: rest => ¬ s.Evicts h p ∧ match ip4Input s h p with
    | none => True
    | some (s', _) => NoEviction s' rest

def Split.Arrived (d : Split) (arrivals : List (Host × Packet)) : Prop :=
  ∀ i < d.count, ∃ a ∈ arrivals, a.2.IsPiece d i

/-- The packets with the key of a datagram are its fragments, the checks of `ip4_input` let them
through, and there is memory for every packet. -/
structure Split.Sent (d : Split) (arrivals : List (Host × Packet)) : Prop where
  piece : ∀ a ∈ arrivals, a.2.key = d.key → ∃ i, a.2.IsPiece d i
  taken : ∀ a ∈ arrivals, a.2.key = d.key → a.1.Takes a.2
  memory : ∀ a ∈ arrivals, a.1.alloc = true ∧ a.1.netbuf = true

def Split.Once (d : Split) (arrivals : List (Host × Packet)) : Prop :=
  arrivals.Pairwise fun a b => a.2.key = d.key → b.2.key = d.key →
    a.2.flagsOffset &&& 0x1FFF ≠ b.2.flagsOffset &&& 0x1FFF

theorem delivered_cons {key : FragKey} {s s' : Frags} {h : Host} {out : Option Delivery}
    {rest : List (Host × Packet)} (hin : ip4Input s h p = some (s', out)) :
    delivered key s ((h, p) :: rest) = (delivered key s' rest).map fun l =>
      ((out.toList.filter fun x => x.key = key).map Delivery.payload) ++ l := by
  simp only [delivered, ip4Run, hin, Option.map_map]
  congr 1
  funext r
  simp

def Split.Completes (d : Split) (arrived : Finset ℕ) (arrivals : List (Host × Packet)) : Prop :=
  arrived ≠ range d.count ∧ ∀ i < d.count, i ∈ arrived ∨ ∃ a ∈ arrivals, a.2.IsPiece d i

namespace Split
variable {a : Host × Packet} {rest : List (Host × Packet)}

theorem completes_other (hkey : a.2.key ≠ d.key) :
    d.Completes arrived (a :: rest) ↔ d.Completes arrived rest := by
  have hno : ∀ i, ¬ a.2.IsPiece d i := fun i h => hkey h.key
  simp [Completes, hno]

theorem completes_piece (hp : a.2.IsPiece d j) (hnew : j ∉ arrived) :
    d.Completes arrived (a :: rest) ↔
      insert j arrived = range d.count ∨ d.Completes (insert j arrived) rest := by
  have hnotall : arrived ≠ range d.count := by
    rintro rfl
    exact hnew (mem_range.mpr hp.lt)
  have honly : ∀ i, a.2.IsPiece d i ↔ i = j := by
    intro i
    constructor
    · exact fun h => h.index_eq hp rfl
    rintro rfl
    exact hp
  simp only [Completes, List.exists_mem_cons_iff, honly, mem_insert]
  constructor
  · rintro ⟨-, h⟩
    by_cases hall : insert j arrived = range d.count
    · exact .inl hall
    · exact .inr ⟨hall, fun i hi => by have := h i hi; tauto⟩
  rintro (hall | ⟨-, h⟩)
  · refine ⟨hnotall, fun i hi => ?_⟩
    have hmem : i ∈ insert j arrived := hall ▸ mem_range.mpr hi
    rw [mem_insert] at hmem
    tauto
  · exact ⟨hnotall, fun i hi => by have := h i hi; tauto⟩

theorem Sent.tail (h : d.Sent (a :: rest)) : d.Sent rest := by
  constructor
  · exact fun b hb => h.piece b (List.mem_cons_of_mem a hb)
  · exact fun b hb => h.taken b (List.mem_cons_of_mem a hb)
  · exact fun b hb => h.memory b (List.mem_cons_of_mem a hb)

end Split

theorem place_inj {m n : UInt16}
    (h : ((m &&& 0x1FFF) * 8).toNat = ((n &&& 0x1FFF) * 8).toNat) : m &&& 0x1FFF = n &&& 0x1FFF := by
  have hlow : ∀ k : UInt16, (k &&& 0x1FFF).toNat = k.toNat % 8192 := by
    intro k
    rw [UInt16.toNat_and]
    exact Nat.and_two_pow_sub_one_eq_mod k.toNat 13
  apply UInt16.toNat.inj
  simp only [UInt16.toNat_mul, hlow, UInt16.reduceToNat] at h ⊢
  omega

open Classical in
theorem delivered_of_tracks {s : Frags} {arrivals : List (Host × Packet)}
    (hproto : d.key.proto = 1 ∨ d.key.proto = 6 ∨ d.key.proto = 17) (hs : s.Tracks d arrived)
    (hsent : d.Sent arrivals) (honce : d.Once arrivals)
    (hnew : ∀ a ∈ arrivals, ∀ i, a.2.IsPiece d i → i ∉ arrived) (hroom : NoEviction s arrivals) :
    delivered d.key s arrivals = some (if d.Completes arrived arrivals then [d.payload] else []) := by
  induction arrivals generalizing s arrived with
  | nil =>
    have hnot : ¬ d.Completes arrived [] := by
      rintro ⟨hne, hall⟩
      apply hne
      apply hs.sub.antisymm
      intro i hi
      simpa using hall i (mem_range.mp hi)
    rw [if_neg hnot]
    rfl
  | cons a rest ih =>
    obtain ⟨h, p⟩ := a
    obtain ⟨halloc, hbuf⟩ := hsent.memory (h, p) List.mem_cons_self
    obtain ⟨hfirst, honce⟩ := List.pairwise_cons.mp honce
    obtain ⟨hevict, hroom⟩ := hroom
    have hnew' := fun a ha => hnew a (List.mem_cons_of_mem (h, p) ha)
    by_cases hkey : p.key = d.key
    · obtain ⟨j, hp⟩ := hsent.piece (h, p) List.mem_cons_self hkey
      have hj := hnew (h, p) List.mem_cons_self j hp
      obtain ⟨s', hin, hs'⟩ := hs.ip4Input_piece hp hj
        (hsent.taken (h, p) List.mem_cons_self hkey) halloc hbuf hproto hevict
      rw [hin] at hroom
      -- the index of a later fragment is not that of this one
      have hlater : ∀ a ∈ rest, ∀ i, a.2.IsPiece d i → i ∉ insert j arrived := by
        intro a ha i hi hmem
        rcases mem_insert.mp hmem with rfl | hmem
        · apply hfirst a ha hkey hi.key
          exact place_inj (hp.place.trans hi.place.symm)
        · exact hnew' a ha i hi hmem
      rw [delivered_cons hin, ih hs' hsent.tail honce hlater hroom]
      by_cases hall : insert j arrived = range d.count
      · have hdone : ¬ d.Completes (range d.count) rest := fun h => h.1 rfl
        simp [Split.completes_piece (a := (h, p)) hp hj, hall, hdone]
      · simp [Split.completes_piece (a := (h, p)) hp hj, hall]
    · obtain ⟨s', out, hin, hs', hout⟩ := hs.ip4Input_other hkey halloc hevict
      rw [hin] at hroom
      have hnone : (out.toList.filter fun x => x.key = d.key) = [] := by
        rw [List.filter_eq_nil_iff]
        intro x hx
        simpa using hout x (by simpa using hx)
      rw [delivered_cons hin, hnone, ih hs' hsent.tail honce hnew' hroom]
      simp [Split.completes_other (a := (h, p)) hkey]

/-- In every run in which no fragment of a datagram comes twice, the transport layer is given the
datagram once all its fragments have arrived, once and with its payload, and nothing before. -/
theorem reassembly_run (d : Split) (s : Frags) (arrivals : List (Host × Packet))
    (hproto : d.key.proto = 1 ∨ d.key.proto = 6 ∨ d.key.proto = 17) (hbacked : s.Backed)
    (hstart : s.fragFind d.key = none) (hsent : d.Sent arrivals)
    (hroom : NoEviction s arrivals) (honce : d.Once arrivals) :
    (d.Arrived arrivals → delivered d.key s arrivals = some [d.payload]) ∧
      (¬ d.Arrived arrivals → delivered d.key s arrivals = some []) := by
  have htwo := d.two_le
  have hempty : (∅ : Finset ℕ) ≠ range d.count := by
    rw [ne_comm, ← nonempty_iff_ne_empty, nonempty_range_iff]
    omega
  have hs : s.Tracks d ∅ := by
    constructor
    · simp
    · exact hbacked
    · intro _ i hi hkey
      have hno := List.find?_eq_none.mp hstart i (List.mem_range.mpr hi)
      simp [hkey.1, hkey.2] at hno
    · simp
  have hmain := delivered_of_tracks hproto hs hsent honce (by simp) hroom
  have hiff : d.Completes ∅ arrivals ↔ d.Arrived arrivals := by
    simp [Split.Completes, Split.Arrived, hempty]
  constructor
  · intro h
    rw [hmain, if_pos (hiff.mpr h)]
  · intro h
    rw [hmain, if_neg (mt hiff.mp h)]

def sampleSplit : Split where
  key := ⟨1, 2, 17, 7⟩
  payload := [1, 2, 3, 4, 5, 6, 7, 8, 9, 10, 11, 12, 13, 14, 15, 16]
  count := 2
  len := const ℕ 8
  two_le := le_rfl
  pos := by simp
  aligned := by simp
  total := rfl
  fits := by simp [netbufPayload]

/-- Its packets, the first one with the flag for more fragments. -/
def samplePacket (flagsOffset : UInt16) (first : ℕ) : Packet where
  len := 28
  versionIhl := 0x45
  totalLen := 28
  id := 7
  flagsOffset := flagsOffset
  proto := 17
  src := 1
  dst := 2
  bytes := fun k => UInt8.ofNat (first + k - 20)

def sampleFirst : Host × Packet := (⟨2, fun _ => false, true, true⟩, samplePacket 0x2000 1)

def sampleLast : Host × Packet := (⟨2, fun _ => false, true, true⟩, samplePacket 1 9)

/-- The slots after `ip4_init`. -/
def Frags.init : Frags where
  slots := fun _ => ⟨⟨0, 0, 0, 0⟩, none, 0, 0, false, false, 0⟩
  age := 0

theorem sampleFirst_isPiece : sampleFirst.2.IsPiece sampleSplit 0 := by
  refine ⟨by decide, by decide, by decide, by decide, by decide⟩

theorem sampleLast_isPiece : sampleLast.2.IsPiece sampleSplit 1 := by
  refine ⟨by decide, by decide, by decide, by decide, by decide⟩

theorem sample_arrived : sampleSplit.Arrived [sampleLast, sampleFirst] := by
  intro i hi
  have hcases : i = 0 ∨ i = 1 := by
    change i < 2 at hi
    omega
  rcases hcases with rfl | rfl
  · exact ⟨sampleFirst, by simp, sampleFirst_isPiece⟩
  · exact ⟨sampleLast, by simp, sampleLast_isPiece⟩

theorem sample_sent : sampleSplit.Sent [sampleLast, sampleFirst] := by
  constructor
  · intro a ha _
    simp only [List.mem_cons, List.not_mem_nil, or_false] at ha
    rcases ha with rfl | rfl
    · exact ⟨1, sampleLast_isPiece⟩
    · exact ⟨0, sampleFirst_isPiece⟩
  · intro a ha _
    simp only [List.mem_cons, List.not_mem_nil, or_false] at ha
    rcases ha with rfl | rfl <;> decide
  · simp [sampleFirst, sampleLast]

theorem sample_noEviction : NoEviction Frags.init [sampleLast, sampleFirst] := by
  constructor
  · exact fun h => h.2.2.2 (.inr ⟨0, rfl⟩)
  constructor
  · exact fun h => h.2.2.2 (.inl (by decide))
  · trivial

theorem sample_delivered : sampleSplit.Arrived [sampleLast, sampleFirst] ∧
      delivered sampleSplit.key Frags.init [sampleLast, sampleFirst] =
        some [sampleSplit.payload] := by
  refine ⟨sample_arrived, (reassembly_run sampleSplit Frags.init [sampleLast, sampleFirst]
    (by decide) ?_ rfl sample_sent sample_noEviction ?_).1 sample_arrived⟩
  · intro i _ h
    cases h
  · rw [Split.Once, List.pairwise_pair]
    decide

/-- The last fragment twice: the transport layer is given bytes that no fragment carried. -/
theorem sampleLast_twice : ¬ sampleSplit.Arrived [sampleLast, sampleLast] ∧
      delivered sampleSplit.key Frags.init [sampleLast, sampleLast] =
        some [[0, 0, 0, 0, 0, 0, 0, 0, 9, 10, 11, 12, 13, 14, 15, 16]] := by
  constructor
  · intro h
    obtain ⟨a, ha, hp⟩ := h 0 (by decide)
    obtain rfl : a = sampleLast := by simpa using ha
    exact absurd (hp.index_eq sampleLast_isPiece rfl) (by decide)
  · decide

end Exploidus.Net
