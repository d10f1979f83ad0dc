import Exploidus.Cap.Soundness
import Mathlib

/-! What revoking a token does to the tokens that were delegated from it. -/
namespace Exploidus.Cap
open Revoked Token

section
variable {L : Type} [DecidableEq L] [Zero L] {mac : Word → Pid → L} {h : History L}
  {t d : Token L} {p : Pid}

/-- A call delegated `s` and gave out `d`. -/
def Delegated (log : List (Event L)) (s d : Token L) : Prop :=
  ∃ e ∈ log, ∃ target subset, e.call = .delegate s target subset ∧ e.reply = .token d

/-- `d` was obtained from `s` by a chain of delegations. -/
def Derived (log : List (Event L)) : Token L → Token L → Prop := Relation.TransGen (Delegated log)

def RevocationReaches (mac : Word → Pid → L) (h : History L) : Prop :=
  ∀ e ∈ h.log, ∀ a t b, e.call = .revoke a t b → e.reply = .ok →
    ∀ d, Derived h.log t d → ∀ p required, capValidate mac h.table d p required = false

/-- Everything derived from `t` is revoked already, or is `t`. -/
def Uprooted (h : History L) (t : Token L) : Prop :=
  ∀ d, Derived h.log t d → d = t ∨ h.table.contains d = true

/-- A token is revoked by these calls only after everything derived from it. -/
def LeavesFirst (mac : Word → Pid → L) : History L → List (Pid × Call L) → Prop
  | _, [] => True
  | h, c :: cs =>
    (∀ a t b, c.2 = .revoke a t b → (exec mac h.table c.1 c.2).2 = .ok → Uprooted h t) ∧
      LeavesFirst mac (h.step mac c) cs

def Genuine (mac : Word → Pid → L) (log : List (Event L)) : Prop :=
  ∀ e ∈ log, e.reply = (exec mac e.table e.caller e.call).2

theorem Genuine.run {cs : List (Pid × Call L)} (hg : Genuine mac h.log) :
    Genuine mac (cs.foldl (History.step mac) h).log := by
  induction cs generalizing h with
  | nil => exact hg
  | cons c cs ih =>
    refine ih fun e he => ?_
    rcases List.mem_cons.mp he with rfl | he
    · rfl
    · exact hg e he

omit [DecidableEq L] [Zero L] in
theorem delegated_cons {e : Event L} {log : List (Event L)} {s : Token L} :
    Delegated (e :: log) s d ↔ Delegated log s d ∨
      ∃ target subset, e.call = .delegate s target subset ∧ e.reply = .token d := by
  unfold Delegated
  rw [List.exists_mem_cons_iff, or_comm]

omit [DecidableEq L] [Zero L] in
theorem derived_cons {e : Event L} {log : List (Event L)} {s : Token L}
    (he : ∀ s target subset, e.call ≠ .delegate s target subset) :
    Derived (e :: log) s d ↔ Derived log s d := by
  have hd : Delegated (e :: log) = Delegated log := by
    funext s d
    rw [delegated_cons, eq_iff_iff, or_iff_left]
    rintro ⟨target, subset, hc, -⟩
    exact he _ _ _ hc
  unfold Derived
  rw [hd]

theorem Genuine.validates (hg : Genuine mac h.log) (hd : Derived h.log t d) {r : Revoked L}
    (hr : r.contains d = false) : ∃ p, capValidate mac r d p 0 := by
  obtain ⟨s, ⟨e, he, target, subset, hc, hreply⟩⟩ : ∃ s, Delegated h.log s d := by
    cases hd with
    | single h => exact ⟨_, h⟩
    | tail _ h => exact ⟨_, h⟩
  have hr' := hg e he
  rw [hreply] at hr'
  rcases exec_token hr'.symm with ⟨_, _, _, _, hc', -, -⟩ | ⟨src, tg, sb, hc', -, h0, hlower, -⟩
  · rw [hc] at hc'
    cases hc'
  · exact ⟨_, capValidate_iff.mpr ⟨h0, hlower, hr, by simp⟩⟩

def Closed (h : History L) : Prop :=
  ∀ {t d}, h.table.contains t = true → Delegated h.log t d → h.table.contains d = true

omit [Zero L] in
theorem Closed.derived (hc : Closed h) (ht : h.table.contains t) (hd : Derived h.log t d) :
    h.table.contains d := by
  induction hd with
  | single h => exact hc ht h
  | tail _ h ih => exact hc ih h

theorem Closed.step (hc : Closed h) {c : Pid × Call L}
    (hcond : ∀ a t b, c.2 = .revoke a t b → (exec mac h.table c.1 c.2).2 = .ok → Uprooted h t) :
    Closed (h.step mac c) := by
  intro t d ht hd
  have hmem : ∀ s, (h.step mac c).table.contains s ↔ h.table.contains s ∨
      ∃ a b, c.2 = .revoke a s b ∧ (exec mac h.table c.1 c.2).2 = .ok := fun s => exec_contains c.2
  rw [hmem] at ht ⊢
  have hlog : (h.step mac c).log = ⟨c.1, c.2, h.table, (exec mac h.table c.1 c.2).2⟩ :: h.log := rfl
  rw [hlog, delegated_cons] at hd
  rcases hd with hd | ⟨target, subset, hcall, hreply⟩
  · rcases ht with ht | ⟨a, b, hcall, hok⟩
    · exact .inl (hc ht hd)
    rcases hcond a t b hcall hok d (.single hd) with rfl | hd'
    · exact .inr ⟨a, b, hcall, hok⟩
    · exact .inl hd'
  -- the source of a delegation validates, so it is not revoked
  dsimp only at hcall hreply
  rcases exec_token hreply with ⟨_, _, _, _, hc', -, -⟩ | ⟨src, tg, sb, hc', hv, -, -, -⟩
  · rw [hcall] at hc'
    cases hc'
  rw [hcall] at hc'
  cases hc'
  obtain ⟨-, -, hnot, -⟩ := capValidate_iff.mp hv
  rcases ht with ht | ⟨a, b, hcall', -⟩
  · rw [hnot] at ht
    cases ht
  · rw [hcall] at hcall'
    cases hcall'

theorem Closed.run {cs : List (Pid × Call L)} (hc : Closed h) (hcs : LeavesFirst mac h cs) :
    Closed (cs.foldl (History.step mac) h) := by
  induction cs generalizing h with
  | nil => exact hc
  | cons c cs ih => exact ih (hc.step hcs.1) hcs.2

/-- Revocation reaches the delegated tokens in every history in which a token is revoked only after
what was delegated from it; and a revocation reaches them, at once, in no other case. -/
theorem revocation_reaches_leaves_first (mac : Word → Pid → L) :
    (∀ cs, LeavesFirst mac History.init cs → RevocationReaches mac (run mac cs)) ∧
    ∀ cs p a t b, (exec mac (run mac cs).table p (.revoke a t b)).2 = .ok →
      ((∀ d, Derived (run mac (cs ++ [(p, .revoke a t b)])).log t d → ∀ q required,
          capValidate mac (run mac (cs ++ [(p, .revoke a t b)])).table d q required = false) ↔
        Uprooted (run mac cs) t) := by
  refine ⟨fun cs hcs e he a t b hc hok d hd p required => ?_, fun cs p a t b hok => ?_⟩
  · have hcl : Closed (run mac cs) := Closed.run (h := History.init) (fun ht _ => by cases ht) hcs
    have hR : Recorded (run mac cs) :=
      Recorded.run (h := History.init) (fun e he => by cases he) cs
    exact capValidate_revoked (hcl.derived (hR e he hc hok) hd)
  have hg : Genuine mac (run mac cs).log :=
    Genuine.run (h := History.init) (fun e he => by cases he)
  have hrun : run mac (cs ++ [(p, .revoke a t b)]) = (run mac cs).step mac (p, .revoke a t b) := by
    unfold run
    rw [List.foldl_append]
    rfl
  have hlog : ∀ d, Derived ((run mac cs).step mac (p, .revoke a t b)).log t d ↔
      Derived (run mac cs).log t d := fun d => derived_cons fun _ _ _ hc => by cases hc
  have hmem : ∀ s, ((run mac cs).step mac (p, .revoke a t b)).table.contains s = true ↔
      (run mac cs).table.contains s = true ∨ s = t := by
    intro s
    refine (exec_contains (Call.revoke a t b)).trans (or_congr_right ⟨?_, ?_⟩)
    · rintro ⟨a', b', he, -⟩
      cases he
      rfl
    · rintro rfl
      exact ⟨a, b, rfl, hok⟩
  rw [hrun]
  constructor
  · intro hall d hd
    by_contra hne
    push Not at hne
    have hnot : ((run mac cs).step mac (p, .revoke a t b)).table.contains d = false := by
      rw [← Bool.not_eq_true, hmem]
      exact fun hc => hc.elim hne.2 hne.1
    obtain ⟨q, hv⟩ := hg.validates hd hnot
    rw [hall d ((hlog d).mpr hd) q 0] at hv
    cases hv
  · intro hup d hd q required
    exact capValidate_revoked ((hmem d).mpr (hup d ((hlog d).mp hd)).symm)

end

/-! ### A token that outlives its source -/

/-- A secret, for runs of the kernel's own authenticator. -/
def sampleSecret : List UInt8 := List.replicate 32 0

/-- A token for reading, delegating and revoking, minted for process 1. -/
def parentToken : Token Word := capCreate (buildLower sampleSecret) 0 7 0x31 1

/-- What process 3 gets of it: reading only. -/
def childToken : Token Word := ⟨0x70001, buildLower sampleSecret 0x70001 3⟩

/-- Process 1 mints a token, delegates it to process 3 and revokes it. -/
def revokedParent : List (Pid × Call Word) :=
  [(1, .create 0 7 0x31 0), (1, .delegate parentToken 3 1),
    (1, .revoke parentToken parentToken (some fun _ => null))]

/-- Process 1 mints the token, delegates it and revokes it, whatever the authenticator is. -/
theorem exec_parent (mac : Word → Pid → Word) :
    exec mac init 1 (.create 0 7 0x31 0) = (init, .token (capCreate mac 0 7 0x31 1)) ∧
      exec mac init 1 (.delegate (capCreate mac 0 7 0x31 1) 3 1) =
        (init, .token ⟨0x70001, mac 0x70001 3⟩) ∧
      exec mac init 1 (.revoke (capCreate mac 0 7 0x31 1) (capCreate mac 0 7 0x31 1)
          (some fun _ => null)) =
        (⟨Function.update (fun _ => null) 0 (capCreate mac 0 7 0x31 1), 1, 256⟩, .ok) := by
  refine ⟨rfl, ?_⟩
  simp [exec, capDelegate, capRevoke, capValidate, init, contains, null, capCreate, rights,
    rightDelegate, rightRevoke, ensureCapacity, append, initialCapacity, maxCapacity]

/-- The revocation of the parent succeeds, and its child still validates. -/
theorem child_outlives_parent :
    capValidate (buildLower sampleSecret) (run (buildLower sampleSecret) revokedParent).table
        childToken 3 1 = true ∧
      ¬ RevocationReaches (buildLower sampleSecret)
        (run (buildLower sampleSecret) revokedParent) := by
  unfold revokedParent childToken parentToken
  generalize buildLower sampleSecret = mac
  obtain ⟨hcreate, hdelegate, hrevoke⟩ := exec_parent mac
  simp only [run, List.foldl_cons, List.foldl_nil, History.step, History.init, hcreate, hdelegate,
    hrevoke]
  have hv : capValidate mac ⟨Function.update (fun _ => null) 0 (capCreate mac 0 7 0x31 1), 1,
      256⟩ ⟨0x70001, mac 0x70001 3⟩ 3 1 = true := by
    simp [capValidate, contains, null, capCreate, rights]
  refine ⟨hv, fun hall => ?_⟩
  have hd := hall _ List.mem_cons_self _ _ _ rfl rfl _
    (.single ⟨_, List.mem_cons_of_mem _ List.mem_cons_self, 3, 1, rfl, rfl⟩) 3 1
  rw [hv] at hd
  cases hd

/-- Process 1 mints a token, delegates it to process 3, revokes what it delegated and then the token
itself. -/
def uprootedParent : List (Pid × Call ℕ) :=
  [(1, .create 0 7 0x31 0), (1, .delegate sampleMinted 3 1),
    (1, .revoke sampleMinted sampleDelegated (some fun _ => null)),
    (1, .revoke sampleMinted sampleMinted (some fun _ => null))]

theorem uprootedParent_derived {t d : Token ℕ}
    (h : Derived (run pairMac (uprootedParent.take 2)).log t d) :
    t = sampleMinted ∧ d = sampleDelegated := by
  have hone : ∀ {s d}, Delegated (run pairMac (uprootedParent.take 2)).log s d →
      s = sampleMinted ∧ d = sampleDelegated := by
    rintro s d ⟨e, he, target, subset, hcall, hreply⟩
    rcases List.mem_cons.mp he with rfl | he
    · cases hcall
      have hgiven : (exec pairMac (init (L := ℕ)) 1 (.delegate sampleMinted 3 1)).2 =
          .token sampleDelegated := by decide
      cases hgiven.symm.trans hreply
      exact ⟨rfl, rfl⟩
    · obtain rfl := List.mem_singleton.mp he
      cases hcall
  induction h with
  | single h => exact hone h
  | tail _ h ih => exact ⟨ih.1, (hone h).2⟩

theorem uprootedParent_reaches : RevocationReaches pairMac (run pairMac uprootedParent) := by
  refine (revocation_reaches_leaves_first pairMac).1 _ ?_
  unfold uprootedParent
  simp only [LeavesFirst, and_true]
  refine ⟨fun a t b hc => (by cases hc), fun a t b hc => (by cases hc), fun a t b hc _ d hd => ?_,
    fun a t b hc _ d hd => ?_⟩
  · cases hc
    have hne : sampleDelegated ≠ sampleMinted := by decide
    exact absurd (uprootedParent_derived hd).1 hne
  cases hc
  have hd' := (derived_cons fun _ _ _ hc => by cases hc).mp hd
  rw [(uprootedParent_derived hd').2]
  exact .inr (by decide)

/-! ### New tokens -/

section
variable {L : Type} [DecidableEq L] [Zero L] {mac : Word → Pid → L}

/-- `t` validates for `p` with exactly the rights `granted`. -/
def Usable (mac : Word → Pid → L) (r : Revoked L) (t : Token L) (p : Pid) (granted : Word) : Prop :=
  ∀ required, capValidate mac r t p required = true ↔ granted &&& required = required

/-- A revocation of `t` succeeded. -/
def RevokedIn (log : List (Event L)) (t : Token L) : Prop :=
  ∃ e ∈ log, ∃ a b, e.call = .revoke a t b ∧ e.reply = .ok

theorem contains_iff_revokedIn (cs : List (Pid × Call L)) (t : Token L) :
    (run mac cs).table.contains t ↔ RevokedIn (run mac cs).log t := by
  induction cs using List.reverseRecOn with
  | nil => simp [run, History.init, init, contains, RevokedIn]
  | append_singleton cs c ih =>
    have hrun : run mac (cs ++ [c]) = (run mac cs).step mac c := List.foldl_concat ..
    rw [hrun]
    refine (exec_contains c.2).trans ?_
    rw [ih, or_comm]
    simp only [RevokedIn, History.step, List.mem_cons, exists_eq_or_imp]

theorem usable_iff {r : Revoked L} {t : Token L} {p : Pid} {granted : Word}
    (hlower : mac t.upper p = t.lower) (hrights : t.rights = granted &&& 0xFFFF) :
    Usable mac r t p granted ↔ t ≠ null ∧ r.contains t = false ∧ granted &&& 0xFFFF = granted := by
  simp only [Usable, capValidate_iff, hlower, hrights, true_and]
  constructor
  · intro h
    obtain ⟨hnull, hc, hall⟩ := (h granted).mpr (BitVec.and_self ..)
    rw [BitVec.and_assoc, BitVec.and_comm 0xFFFF, ← BitVec.and_assoc, BitVec.and_self] at hall
    exact ⟨hnull, hc, hall⟩
  · rintro ⟨hnull, hc, hall⟩ required
    rw [hall]
    simp [hnull, hc]

/-- A minted token is usable unless it is null, equals one revoked before, or was to carry rights
beyond the sixteen a token has room for; a delegated one unless it equals one revoked before. -/
theorem new_token_usable_iff (mac : Word → Pid → L) (cs : List (Pid × Call L)) :
    (∀ res resId rights p,
      Usable mac (run mac cs).table (capCreate mac res resId rights p) p rights ↔
      capCreate mac res resId rights p ≠ null ∧
        ¬ RevokedIn (run mac cs).log (capCreate mac res resId rights p) ∧
        rights &&& 0xFFFF = rights) ∧
    ∀ src p target subset, capDelegate mac (run mac cs).table src p target subset ≠ null →
      (Usable mac (run mac cs).table (capDelegate mac (run mac cs).table src p target subset) target
          (src.rights &&& subset) ↔
        ¬ RevokedIn (run mac cs).log (capDelegate mac (run mac cs).table src p target subset)) := by
  simp only [← contains_iff_revokedIn, Bool.not_eq_true]
  refine ⟨fun res resId rights p => usable_iff rfl (capCreate_fields ..).1, ?_⟩
  intro src p target subset hne
  unfold capDelegate at hne ⊢
  by_cases hv : capValidate mac (run mac cs).table src p rightDelegate = false
  · exact absurd (if_pos hv) hne
  rw [if_neg hv] at hne ⊢
  have hsub : src.rights &&& subset &&& 0xFFFF = src.rights &&& subset := by
    rw [BitVec.and_assoc, BitVec.and_comm subset, ← BitVec.and_assoc]
    unfold rights
    rw [BitVec.and_assoc src.upper, BitVec.and_self]
  refine (usable_iff rfl ?_).trans ?_
  · exact (delegated_rights ..).trans hsub.symm
  · simp only [ne_eq, hne, hsub, not_false_eq_true, true_and, and_true]

theorem new_token_usable_first :
    Usable (buildLower sampleSecret) (run (buildLower sampleSecret) []).table parentToken 1 0x31 :=
  ((new_token_usable_iff (buildLower sampleSecret) []).1 0 7 0x31 1).mpr
    ⟨fun h => absurd (congrArg upper h) (by decide), fun ⟨_, he, _⟩ => (by cases he), by decide⟩

/-- Process 1 mints a token, revokes it, and mints it again: it gets a token that is not usable. -/
theorem minted_again_not_usable :
    let h := run (buildLower sampleSecret) [(1, .create 0 7 0x31 0),
      (1, .revoke parentToken parentToken (some fun _ => null))]
    (exec (buildLower sampleSecret) h.table 1 (.create 0 7 0x31 0)).2 = .token parentToken ∧
      ¬ Usable (buildLower sampleSecret) h.table parentToken 1 0x31 := by
  unfold parentToken
  generalize buildLower sampleSecret = mac
  obtain ⟨hcreate, -, hrevoke⟩ := exec_parent mac
  simp only [run, List.foldl_cons, List.foldl_nil, History.step, History.init, hcreate, hrevoke]
  refine ⟨rfl, fun hu => ?_⟩
  have hv := (hu 0).mpr (by decide)
  simp [capValidate, contains] at hv

end

end Exploidus.Cap
