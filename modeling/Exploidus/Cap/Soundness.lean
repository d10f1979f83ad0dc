import Exploidus.Cap.Capability

/-! Over every history of calls: what validates was granted, and what was revoked stays so. -/
namespace Exploidus.Cap
open BitVec Revoked Token

/-! ### The fields of a token -/

theorem getLsbD_mask {w : ℕ} (k i : ℕ) :
    (BitVec.ofNat w (2 ^ k - 1)).getLsbD i = (decide (i < w) && decide (i < k)) := by
  rw [getLsbD_ofNat, Nat.testBit_two_pow_sub_one]

theorem getLsbD_mask16 (i : ℕ) :
    (0xFFFF : Word).getLsbD i = (decide (i < 64) && decide (i < 16)) := getLsbD_mask 16 i

theorem delegated_rights (u s : Word) :
    ((u &&& ~~~0xFFFF) ||| ((u &&& 0xFFFF) &&& s)) &&& 0xFFFF = (u &&& 0xFFFF) &&& s := by
  ext i hi
  simp only [getElem_and, getElem_or, getElem_not]
  cases u[i] <;> cases s[i] <;> cases (0xFFFF : Word)[i] <;> rfl

theorem delegated_above (u s : Word) {n : ℕ} (h : 16 ≤ n) :
    ((u &&& ~~~0xFFFF) ||| ((u &&& 0xFFFF) &&& s)) >>> n = u >>> n := by
  apply eq_of_getLsbD_eq
  intro i hi
  have hni : ¬ n + i < 16 := by omega
  simp only [getLsbD_ushiftRight, getLsbD_or, getLsbD_and, getLsbD_not, getLsbD_mask16, hni]
  cases hb : u.getLsbD (n + i) with
  | false => simp
  | true => simpa using lt_of_getLsbD hb

/-- The three fields of a new token are what was asked for, cut to their widths. -/
theorem capCreate_fields {L : Type} (mac : Word → Pid → L) (res resId : BitVec 32) (rights : Word)
    (owner : Pid) : (capCreate mac res resId rights owner).rights = rights &&& 0xFFFF ∧
      (capCreate mac res resId rights owner).resId = resId.setWidth 64 ∧
      (capCreate mac res resId rights owner).res = (res &&& 0xFFFF).setWidth 64 := by
  have h32 (i : ℕ) : (0xFFFF : BitVec 32).getLsbD i = (decide (i < 32) && decide (i < 16)) :=
    getLsbD_mask 16 i
  have h64 (i : ℕ) : (0xFFFFFFFF : Word).getLsbD i = (decide (i < 64) && decide (i < 32)) :=
    getLsbD_mask 32 i
  unfold capCreate Token.rights Token.resId Token.res
  refine ⟨?_, ?_, ?_⟩
  all_goals
    apply eq_of_getLsbD_eq
    intro i hi
    simp only [getLsbD_ushiftRight, getLsbD_or, getLsbD_and,
      getLsbD_shiftLeft, getLsbD_setWidth, getLsbD_mask16, h32, h64]
  · by_cases h : i < 16
    · simp [h, show i < 48 by omega]
    · simp [h]
  · by_cases h : i < 32
    · simp [h, show 16 + i < 48 by omega, show 16 + i < 64 by omega, show i < 64 by omega]
    · simp [h, getLsbD_of_ge resId i (by omega)]
  · by_cases h : i < 16
    · simp [h, show 48 + i < 64 by omega, show i < 64 by omega, show i < 32 by omega,
        show ¬ 48 + i < 16 by omega, getLsbD_of_ge resId (48 + i - 16) (by omega)]
    · simp [h]

section
variable {L : Type} [DecidableEq L] {r r' : Revoked L} {t s : Token L}
  {block : Option (ℕ → Token L)}

/-! ### The revocation table -/

theorem Revoked.contains_iff : r.contains t ↔ ∃ i < r.count, r.table i = t := by
  simp [contains]

omit [DecidableEq L] in
theorem Revoked.ensureCapacity_some (h : r.ensureCapacity block = some r') :
    r'.count = r.count ∧ ∀ i < r.count, r'.table i = r.table i := by
  unfold ensureCapacity at h
  by_cases hlt : r.count < r.capacity
  · rw [if_pos hlt] at h
    cases h
    exact ⟨rfl, fun _ _ => rfl⟩
  rw [if_neg hlt] at h
  by_cases hmax : maxCapacity ≤ r.capacity
  · rw [if_pos hmax] at h
    cases h
  rw [if_neg hmax] at h
  cases block with
  | none => cases h
  | some b =>
    cases h
    exact ⟨rfl, fun i hi => if_pos hi⟩

theorem Revoked.contains_append : (r.append t).contains s ↔ r.contains s ∨ s = t := by
  have hself : (r.append t).table r.count = t := Function.update_self _ _ _
  have hold : ∀ {i}, i ≠ r.count → (r.append t).table i = r.table i := fun hi =>
    Function.update_of_ne hi _ _
  rw [contains_iff, contains_iff]
  constructor
  · rintro ⟨i, hi, he⟩
    by_cases hic : i = r.count
    · subst hic
      exact .inr (he.symm.trans hself)
    · have hi' : i < r.count + 1 := hi
      exact .inl ⟨i, by omega, (hold hic).symm.trans he⟩
  · rintro (⟨i, hi, he⟩ | rfl)
    · exact ⟨i, Nat.lt_succ_of_lt hi, (hold hi.ne).trans he⟩
    · exact ⟨r.count, Nat.lt_succ_self _, hself⟩

theorem Revoked.contains_ensureCapacity (h : r.ensureCapacity block = some r') :
    r'.contains s = r.contains s := by
  obtain ⟨hc, ht⟩ := ensureCapacity_some h
  rw [Bool.eq_iff_iff, contains_iff, contains_iff, hc]
  constructor
  · rintro ⟨i, hi, he⟩
    exact ⟨i, hi, by rw [← ht i hi, he]⟩
  · rintro ⟨i, hi, he⟩
    exact ⟨i, hi, by rw [ht i hi, he]⟩

variable [Zero L] {mac : Word → Pid → L} {p q : Pid} {required : Word}

theorem capValidate_iff : capValidate mac r t p required ↔
    t ≠ null ∧ mac t.upper p = t.lower ∧ r.contains t = false ∧
      t.rights &&& required = required := by
  unfold capValidate
  by_cases h0 : t = null
  · simp [h0]
  by_cases h1 : mac t.upper p = t.lower
  · cases hc : r.contains t <;> simp [h0, h1]
  · simp [h0, h1]

theorem capValidate_revoked (h : r.contains t) : capValidate mac r t p required = false := by
  rw [← Bool.not_eq_true, capValidate_iff]
  rintro ⟨-, -, hc, -⟩
  rw [h] at hc
  cases hc

theorem capRevoke_contains (authority target : Token L) :
    let out := capRevoke mac r authority target p block
    (out.1.contains s ↔ r.contains s ∨ out.2 ∧ s = target) := by
  dsimp only
  unfold capRevoke
  by_cases hv : capValidate mac r authority p rightRevoke = false
  · simp [hv]
  rw [if_neg hv]
  by_cases hres : authority.res ≠ resKernel ∧ authority.res ≠ target.res
  · simp [hres]
  rw [if_neg hres]
  by_cases h0 : target = null
  · simp [h0]
  rw [if_neg h0]
  by_cases hc : r.contains target
  · rw [if_pos hc]
    simp only [true_and, iff_self_or]
    rintro rfl
    exact hc
  rw [if_neg hc]
  cases hg : r.ensureCapacity block with
  | none => simp
  | some r1 =>
    dsimp only
    rw [contains_append, contains_ensureCapacity hg]
    simp

theorem exec_contains (c : Call L) : (exec mac r p c).1.contains s ↔ r.contains s ∨
      ∃ a b, c = .revoke a s b ∧ (exec mac r p c).2 = .ok := by
  cases c with
  | create res resId rights owner =>
    simp only [exec]
    split <;> simp
  | delegate src target subset =>
    simp only [exec]
    split <;> simp
  | check token required => simp [exec]
  | revoke a t b =>
    have h : (capRevoke mac r a t p b).1.contains s ↔ r.contains s ∨
        (capRevoke mac r a t p b).2 ∧ s = t := capRevoke_contains a t
    simp only [exec, h]
    refine or_congr_right ⟨?_, ?_⟩
    · rintro ⟨hok, rfl⟩
      exact ⟨a, b, rfl, by rw [if_pos hok]⟩
    rintro ⟨a', b', he, hok⟩
    cases he
    refine ⟨?_, rfl⟩
    by_contra hne
    rw [if_neg hne] at hok
    cases hok

/-! ### Grants -/

structure Attenuates (t s : Token L) : Prop where
  rights : t.rights &&& s.rights = t.rights
  res : t.res = s.res
  resId : t.resId = s.resId

/-- The log holds a grant of `t` to `p`: `t` was minted for `p`, or `p` got it by a delegation whose
source validated, at that moment, for a process that had it granted. -/
inductive Granted (mac : Word → Pid → L) : List (Event L) → Token L → Pid → Prop
  | minted {log : List (Event L)} {e : Event L} {res resId rights owner : Word}
      (hcall : e.call = .create res resId rights owner) (hcaller : e.caller ≤ 2) :
      Granted mac (e :: log) (capCreate mac (res.setWidth 32) (resId.setWidth 32) rights
        (ownerOf e.caller owner)) (ownerOf e.caller owner)
  | delegated {log : List (Event L)} {e : Event L} {src t : Token L} {target subset : Word}
      (hsrc : Granted mac log src e.caller) (hcall : e.call = .delegate src target subset)
      (hvalid : capValidate mac e.table src e.caller rightDelegate = true)
      (hreply : e.reply = .token t) (hlower : mac t.upper (target.setWidth 32) = t.lower)
      (hless : Attenuates t src) : Granted mac (e :: log) t (target.setWidth 32)
  | earlier {log : List (Event L)} {e : Event L} {t : Token L} {p : Pid}
      (h : Granted mac log t p) : Granted mac (e :: log) t p

theorem Granted.lower {log : List (Event L)} (h : Granted mac log t p) :
    mac t.upper p = t.lower := by
  induction h with
  | minted => rfl
  | delegated _ _ _ _ hlower _ => exact hlower
  | earlier _ ih => exact ih

def Known (log : List (Event L)) (l : L) : Prop :=
  ∃ e ∈ log, ∃ t : Token L, e.reply = .token t ∧ t.lower = l

/-- A token that a process can present when it cannot compute `mac`: its authenticator was given
out before, or is none at all. -/
def Presentable (mac : Word → Pid → L) (log : List (Event L)) (t : Token L) : Prop :=
  Known log t.lower ∨ ∀ u p, mac u p ≠ t.lower

/-- Every token presented along the calls is one that a process can present. -/
def Unforged (mac : Word → Pid → L) : History L → List (Pid × Call L) → Prop
  | _, [] => True
  | h, c :: cs => (∀ t ∈ c.2.presented, Presentable mac h.log t) ∧ Unforged mac (h.step mac c) cs

def Issued (mac : Word → Pid → L) (log : List (Event L)) : Prop :=
  ∀ e ∈ log, ∀ t, e.reply = .token t → ∃ p, Granted mac log t p

theorem Issued.granted {log : List (Event L)} (h : Issued mac log)
    (hinj : ∀ {u p u' p'}, mac u p = mac u' p' → u = u' ∧ p = p')
    (hpres : Presentable mac log t) (hv : capValidate mac r t p required) :
    Granted mac log t p := by
  obtain ⟨-, hlower, -, -⟩ := capValidate_iff.mp hv
  rcases hpres with ⟨e, he, t', hreply, hl⟩ | hnone
  · obtain ⟨p', hg⟩ := h e he t' hreply
    obtain ⟨hu, rfl⟩ := hinj (hg.lower.trans (hl.trans hlower.symm))
    obtain rfl : t' = t := by
      cases t'
      cases t
      cases hu
      cases hl
      rfl
    exact hg
  · exact absurd hlower (hnone _ _)

theorem exec_token {c : Call L} (h : (exec mac r p c).2 = .token t) :
    (∃ res resId rights owner, c = .create res resId rights owner ∧ p ≤ 2 ∧
      t = capCreate mac (res.setWidth 32) (resId.setWidth 32) rights (ownerOf p owner)) ∨
    ∃ src target subset, c = .delegate src target subset ∧
      capValidate mac r src p rightDelegate ∧ t ≠ null ∧
      mac t.upper (target.setWidth 32) = t.lower ∧ Attenuates t src := by
  cases c with
  | create res resId rights owner =>
    simp only [exec] at h
    by_cases hp : 2 < p
    · rw [if_pos hp] at h
      cases h
    rw [if_neg hp] at h
    cases h
    exact .inl ⟨res, resId, rights, owner, rfl, BitVec.not_lt.mp hp, rfl⟩
  | delegate src target subset =>
    simp only [exec] at h
    by_cases h0 : capDelegate mac r src p (target.setWidth 32) subset = null
    · rw [if_pos h0] at h
      cases h
    rw [if_neg h0] at h
    cases h
    by_cases hv : capValidate mac r src p rightDelegate = false
    · exact absurd (if_pos hv) h0
    have hd : capDelegate mac r src p (target.setWidth 32) subset =
        ⟨(src.upper &&& ~~~0xFFFF) ||| (src.rights &&& subset), mac _ (target.setWidth 32)⟩ :=
      if_neg hv
    refine .inr ⟨src, target, subset, rfl, by simpa using hv, h0, ?_, ?_⟩
    · rw [hd]
    rw [hd]
    refine ⟨?_, ?_, ?_⟩
    · unfold rights
      rw [delegated_rights, BitVec.and_assoc, BitVec.and_comm subset, ← BitVec.and_assoc,
        BitVec.and_self]
    · unfold res rights
      rw [delegated_above _ _ (by norm_num)]
    · unfold resId rights
      rw [delegated_above _ _ (by norm_num)]
  | revoke a t b =>
    simp only [exec] at h
    split at h <;> cases h
  | check token required =>
    simp only [exec] at h
    split at h <;> cases h

/-! ### Histories -/

theorem Issued.step {h : History L} {c : Pid × Call L} (hI : Issued mac h.log)
    (hinj : ∀ {u p u' p'}, mac u p = mac u' p' → u = u' ∧ p = p')
    (hpres : ∀ t ∈ c.2.presented, Presentable mac h.log t) : Issued mac (h.step mac c).log := by
  intro e he t hreply
  rcases List.mem_cons.mp he with rfl | he
  · rcases exec_token hreply with ⟨res, resId, rights, owner, hc, hp, rfl⟩ |
      ⟨src, target, subset, hc, hv, -, hlower, hless⟩
    · exact ⟨_, .minted hc hp⟩
    have hg := hI.granted hinj (hpres src (by rw [hc]; exact List.mem_singleton_self _)) hv
    exact ⟨_, .delegated hg hc hv hreply hlower hless⟩
  · obtain ⟨p, hg⟩ := hI e he t hreply
    exact ⟨p, .earlier hg⟩

theorem Issued.run {h : History L} {cs : List (Pid × Call L)} (hI : Issued mac h.log)
    (hinj : ∀ {u p u' p'}, mac u p = mac u' p' → u = u' ∧ p = p') (hcs : Unforged mac h cs) :
    Issued mac (cs.foldl (History.step mac) h).log := by
  induction cs generalizing h with
  | nil => exact hI
  | cons c cs ih => exact ih (hI.step hinj hcs.1) hcs.2

def Recorded (h : History L) : Prop :=
  ∀ e ∈ h.log, ∀ {a t b}, e.call = .revoke a t b → e.reply = .ok → h.table.contains t = true

theorem Recorded.step {h : History L} (hR : Recorded h) (c : Pid × Call L) :
    Recorded (h.step mac c) := by
  intro e he a t b hc hreply
  refine (exec_contains c.2).mpr ?_
  rcases List.mem_cons.mp he with rfl | he
  · exact .inr ⟨a, b, hc, hreply⟩
  · exact .inl (hR e he hc hreply)

theorem Recorded.run {h : History L} (hR : Recorded h) (cs : List (Pid × Call L)) :
    Recorded (cs.foldl (History.step mac) h) := by
  induction cs generalizing h with
  | nil => exact hR
  | cons c cs ih => exact ih (hR.step c)

/-- With an authenticator that is injective and that processes cannot compute: what validates for a
process was granted to it, a token granted to one process validates for no other, and a revoked
token never validates again. -/
theorem capability_soundness (hinj : ∀ {u p u' p'}, mac u p = mac u' p' → u = u' ∧ p = p')
    {cs : List (Pid × Call L)} (hcs : Unforged mac History.init cs) :
    (∀ t p required, Presentable mac (run mac cs).log t →
      capValidate mac (run mac cs).table t p required = true → Granted mac (run mac cs).log t p) ∧
    (∀ t p q required, Granted mac (run mac cs).log t q →
      capValidate mac (run mac cs).table t p required = true → p = q) ∧
    ∀ e ∈ (run mac cs).log, ∀ a t b, e.call = .revoke a t b → e.reply = .ok →
      ∀ p required, capValidate mac (run mac cs).table t p required = false := by
  have hI : Issued mac (run mac cs).log :=
    Issued.run (h := History.init) (fun e he => by cases he) hinj hcs
  have hR : Recorded (run mac cs) :=
    Recorded.run (h := History.init) (fun e he => by cases he) cs
  refine ⟨fun t p required hpres hv => hI.granted hinj hpres hv, fun t p q required hg hv => ?_,
    fun e he a t b hc hreply p required => capValidate_revoked (hR e he hc hreply)⟩
  obtain ⟨-, hlower, -, -⟩ := capValidate_iff.mp hv
  exact (hinj (hlower.trans hg.lower.symm)).2

/-- One of the first processes had `m` minted. -/
def Minted (mac : Word → Pid → L) (log : List (Event L)) (m : Token L) : Prop :=
  ∃ e ∈ log, ∃ res resId rights owner, e.call = .create res resId rights owner ∧ e.caller ≤ 2 ∧
    m = capCreate mac (res.setWidth 32) (resId.setWidth 32) rights (ownerOf e.caller owner)

/-- The delegations behind a grant lead back to a minted token. -/
theorem Granted.minted_above {log : List (Event L)} (h : Granted mac log t p) :
    ∃ m, Minted mac log m ∧ Attenuates t m := by
  induction h with
  | minted hcall hcaller =>
    exact ⟨_, ⟨_, .head _, _, _, _, _, hcall, hcaller, rfl⟩, and_self, rfl, rfl⟩
  | delegated _ _ _ _ _ hless ih =>
    obtain ⟨m, ⟨e, he, hm⟩, hroot⟩ := ih
    refine ⟨m, ⟨e, .tail _ he, hm⟩, ?_, hless.res.trans hroot.res, hless.resId.trans hroot.resId⟩
    rw [← hless.rights, BitVec.and_assoc, hroot.rights]
  | earlier _ ih =>
    obtain ⟨m, ⟨e, he, hm⟩, hroot⟩ := ih
    exact ⟨m, ⟨e, .tail _ he, hm⟩, hroot⟩

end

/-! ### A history -/

def pairMac (u : Word) (p : Pid) : ℕ := u.toNat * 2 ^ 32 + p.toNat + 1

theorem pairMac_injective {u u' : Word} {p p' : Pid} (h : pairMac u p = pairMac u' p') :
    u = u' ∧ p = p' := by
  have h1 := p.isLt
  have h2 := p'.isLt
  unfold pairMac at h
  exact ⟨eq_of_toNat_eq (by omega), eq_of_toNat_eq (by omega)⟩

/-- A token for reading, delegating and revoking, minted for process 1. -/
def sampleMinted : Token ℕ := capCreate pairMac 0 7 0x31 1

/-- What process 3 gets of it: reading only. -/
def sampleDelegated : Token ℕ := ⟨0x70001, pairMac 0x70001 3⟩

/-- Process 1 mints a token, delegates it to process 3, which uses it, and then revokes its own. -/
def sampleCalls : List (Pid × Call ℕ) :=
  [(1, .create 0 7 0x31 0), (1, .delegate sampleMinted 3 1), (3, .check sampleDelegated 1),
    (1, .revoke sampleMinted sampleMinted (some fun _ => null))]

theorem sampleCalls_unforged : Unforged pairMac History.init sampleCalls := by
  unfold sampleCalls
  simp only [Unforged, and_true]
  refine ⟨fun t ht => (by cases ht), fun t ht => .inl ?_, fun t ht => .inl ?_, fun t ht => .inl ?_⟩
  · obtain rfl := List.mem_singleton.mp ht
    exact ⟨_, List.mem_cons_self, sampleMinted, by decide, rfl⟩
  · obtain rfl := List.mem_singleton.mp ht
    exact ⟨_, List.mem_cons_self, sampleDelegated, by decide, rfl⟩
  obtain rfl : t = sampleMinted := by simpa [Call.presented] using ht
  exact ⟨_, List.mem_cons_of_mem _ (List.mem_cons_of_mem _ List.mem_cons_self), sampleMinted,
    by decide, rfl⟩

theorem sampleCalls_sound : Granted pairMac (run pairMac sampleCalls).log sampleDelegated 3 ∧
      capValidate pairMac (run pairMac sampleCalls).table sampleMinted 1 0 = false := by
  have h := capability_soundness pairMac_injective sampleCalls_unforged
  refine ⟨h.1 _ _ 1 (.inl ⟨_, List.mem_cons_of_mem _ (List.mem_cons_of_mem _ List.mem_cons_self),
      sampleDelegated, ?_, rfl⟩) ?_, h.2.2 _ List.mem_cons_self _ _ _ rfl ?_ 1 0⟩
  all_goals decide

end Exploidus.Cap
