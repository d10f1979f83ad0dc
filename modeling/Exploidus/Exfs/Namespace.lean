import Exploidus.Exfs.Rename

/-! The names on a volume: every entry of a directory refers to an inode in use, no two entries
refer to the same inode, and no directory holds a name twice. -/
namespace Exploidus.Exfs
open Function Dirent

/-- The directories of a device: the root, and what an entry of type 1 in a directory names. -/
inductive IsDir (g : Superblock) (d : ℕ → Block) : ℕ → Prop
  | root : IsDir g d 0
  | child {n f k : ℕ} (h : IsDir g d n) (hl : (entry g d n f k).live = true)
      (ht : (entry g d n f k).fileType = 1) : IsDir g d (entry g d n f k).inodeNum.toNat

structure NsOn (g : Superblock) (d : ℕ → Block) (P : ℕ → Prop) : Prop where
  compact : ∀ n, P n → Compact d (inodeTable g d n)
  bound : ∀ n f k, P n → (entry g d n f k).live = true → (entry g d n f k).inodeNum.toNat < 4096
  inUse : ∀ n f k, P n → (entry g d n f k).live = true →
    (inodeTable g d (entry g d n f k).inodeNum.toNat).inUse
  unique : ∀ n f k n' f' k', P n → P n' → (entry g d n f k).live = true →
    (entry g d n f k).inodeNum.toNat = (entry g d n' f' k').inodeNum.toNat →
      n = n' ∧ f = f' ∧ k = k'
  names : ∀ n f k f' k', P n → (entry g d n f k).live = true →
    (entry g d n f' k').live = true → (entry g d n f k).text = (entry g d n f' k').text →
      f = f' ∧ k = k'

def Ns (g : Superblock) (d : ℕ → Block) : Prop := NsOn g d (IsDir g d)

section
variable {g : Superblock} {d d' : ℕ → Block} {P Q : ℕ → Prop} {n : ℕ}

theorem NsOn.anti (h : NsOn g d P) (hQ : ∀ n, Q n → P n) : NsOn g d Q :=
  ⟨fun n hn => h.compact n (hQ n hn), fun n f k hn => h.bound n f k (hQ n hn),
    fun n f k hn => h.inUse n f k (hQ n hn),
    fun n f k n' f' k' hn hn' => h.unique n f k n' f' k' (hQ n hn) (hQ n' hn'),
    fun n f k f' k' hn => h.names n f k f' k' (hQ n hn)⟩

theorem IsDir.sub (h0 : P 0) (h : ∀ n f k, P n → (entry g d n f k).live →
    (entry g d n f k).fileType = 1 → P (entry g d n f k).inodeNum.toNat) (hn : IsDir g d n) :
    P n := by
  induction hn with
  | root => exact h0
  | child _ hl ht ih => exact h _ _ _ ih hl ht

theorem IsDir.cases_child (hn : IsDir g d n) : n = 0 ∨ ∃ m f k, IsDir g d m ∧
    (entry g d m f k).live ∧ (entry g d m f k).fileType = 1 ∧
      (entry g d m f k).inodeNum.toNat = n := by
  cases hn with
  | root => exact .inl rfl
  | child h hl ht => exact .inr ⟨_, _, _, h, hl, ht, rfl⟩

theorem Ns.taken (h : Ns g d) (hn : IsDir g d n) : Taken g d n := by
  intro h0
  rcases hn.cases_child with hz | ⟨m, f, k, hm, hl, -, rfl⟩
  · exact absurd hz h0
  · exact h.inUse m f k hm hl

theorem Ns.no_self (h : Ns g d) (hn : IsDir g d n) {f k : ℕ}
    (hl : (entry g d n f k).live) : n ≠ (entry g d n f k).inodeNum.toNat := by
  intro hself
  have h0 : n ≠ 0 := by
    rwa [live_iff, ← hself] at hl
  have hnot : ∀ m, IsDir g d m → m ≠ n := by
    intro m hm
    induction hm with
    | root => exact Ne.symm h0
    | child hm hl' _ ih =>
      intro he
      exact ih (h.unique _ _ _ _ f k hm hn hl' (he.trans hself)).1
  exact hnot n hn rfl

theorem Ns.goodEntries (h : Ns g d) (hn : IsDir g d n) : GoodEntries g d n :=
  fun f k hl => ⟨h.bound n f k hn hl, h.no_self hn hl⟩

theorem Ns.file_ne_dir (h : Ns g d) (hn : IsDir g d n) {f k : ℕ}
    (hl : (entry g d n f k).live) (ht : (entry g d n f k).fileType ≠ 1) {m : ℕ}
    (hm : IsDir g d m) : m ≠ (entry g d n f k).inodeNum.toNat := by
  intro he
  rcases hm.cases_child with hz | ⟨m', f', k', hm', hl', ht', he'⟩
  · rw [live_iff, ← he, hz] at hl
    exact hl rfl
  · obtain ⟨rfl, rfl, rfl⟩ := h.unique m' f' k' n f k hm' hn hl' (he'.trans he)
    exact ht ht'

/-! A change of entries: every live entry of a directory is `e`, at the slot `t`, or it is the one
that was there before, and `keep` holds. -/

section
variable {e : Dirent} {t : ℕ × ℕ × ℕ} {keep : ℕ → ℕ → ℕ → Prop} {c f k : ℕ}

def Shift (g : Superblock) (d d' : ℕ → Block) (e : Dirent) (t : ℕ × ℕ × ℕ)
    (keep : ℕ → ℕ → ℕ → Prop) : Prop :=
  ∀ m f k, IsDir g d m ∨ m = e.inodeNum.toNat ∧ e.fileType = 1 →
    (entry g d' m f k).live = true → IsDir g d m ∧ ((m, f, k) = t ∧ entry g d' m f k = e ∨
      entry g d' m f k = entry g d m f k ∧ keep m f k)

theorem Shift.isDir (h : Shift g d d' e t keep) (hn : IsDir g d' n) :
    IsDir g d n ∨ n = e.inodeNum.toNat ∧ e.fileType = 1 := by
  refine hn.sub (P := fun n => IsDir g d n ∨ n = e.inodeNum.toNat ∧ e.fileType = 1)
    (.inl .root) fun m f k hm hl ht => ?_
  obtain ⟨hd, ⟨-, heq⟩ | ⟨heq, -⟩⟩ := h m f k hm hl <;> rw [heq] at hl ht ⊢
  · exact .inr ⟨rfl, ht⟩
  · exact .inl (.child hd hl ht)

theorem Ns.shift (h : Ns g d) (hs : Shift g d d' e t keep)
    (hnew : e.live → e.inodeNum.toNat < 4096 ∧ (inodeTable g d' e.inodeNum.toNat).inUse ∧
      ∀ f k, (entry g d t.1 f k).live → (entry g d t.1 f k).text ≠ e.text)
    (hkeep : ∀ m f k, IsDir g d m → (entry g d m f k).live → keep m f k →
      (entry g d m f k).inodeNum.toNat ≠ e.inodeNum.toNat ∧
        (inodeTable g d' (entry g d m f k).inodeNum.toNat).inUse)
    (hcompact : ∀ m, IsDir g d m ∨ m = e.inodeNum.toNat ∧ e.fileType = 1 →
      Compact d' (inodeTable g d' m)) : Ns g d' := by
  refine NsOn.anti (P := fun n => IsDir g d n ∨ n = e.inodeNum.toNat ∧ e.fileType = 1)
    ⟨hcompact, ?_, ?_, ?_, ?_⟩ fun _ => hs.isDir
  · intro m f k hm hl
    obtain ⟨hd, ⟨-, heq⟩ | ⟨heq, -⟩⟩ := hs m f k hm hl <;> rw [heq] at hl ⊢
    · exact (hnew hl).1
    · exact h.bound m f k hd hl
  · intro m f k hm hl
    obtain ⟨hd, ⟨-, heq⟩ | ⟨heq, hk⟩⟩ := hs m f k hm hl <;> rw [heq] at hl ⊢
    · exact (hnew hl).2.1
    · exact (hkeep m f k hd hl hk).2
  · intro m f k m' f' k' hm hm' hl heq
    have hl' : (entry g d' m' f' k').live := by
      rwa [live_iff, ← heq, ← live_iff]
    obtain ⟨hd, ⟨h1, he1⟩ | ⟨he1, hk1⟩⟩ := hs m f k hm hl <;>
      obtain ⟨hd', ⟨h2, he2⟩ | ⟨he2, hk2⟩⟩ := hs m' f' k' hm' hl' <;>
      rw [he1] at hl heq <;> rw [he2] at hl' heq
    · simpa using h1.trans h2.symm
    · exact absurd heq.symm (hkeep m' f' k' hd' hl' hk2).1
    · exact absurd heq (hkeep m f k hd hl hk1).1
    · exact h.unique m f k m' f' k' hd hd' hl heq
  · intro m f k f' k' hm hl hl' heq
    obtain ⟨hd, ⟨h1, he1⟩ | ⟨he1, -⟩⟩ := hs m f k hm hl <;>
      obtain ⟨-, ⟨h2, he2⟩ | ⟨he2, -⟩⟩ := hs m f' k' hm hl' <;>
      rw [he1] at hl heq <;> rw [he2] at hl' heq
    · simpa using h1.trans h2.symm
    · subst h1
      exact absurd heq.symm ((hnew hl).2.2 f' k' hl')
    · subst h2
      exact absurd heq ((hnew hl').2.2 f k hl)
    · exact h.names m f k f' k' hd hl hl' heq

theorem Shift.blank (h : ∀ m f k, IsDir g d m → (entry g d' m f k).live →
    entry g d' m f k = entry g d m f k ∧ keep m f k) :
    Shift g d d' blank (0, 0, 0) keep := fun m f k hm hl =>
  have hd := hm.resolve_right fun hb => absurd hb.2 (by decide)
  ⟨hd, .inr (h m f k hd hl)⟩

theorem Ns.shift_blank (h : Ns g d) (hs : Shift g d d' blank (0, 0, 0) keep)
    (huse : ∀ m f k, IsDir g d m → (entry g d m f k).live → keep m f k →
      (inodeTable g d' (entry g d m f k).inodeNum.toNat).inUse)
    (hcompact : ∀ m, IsDir g d m → Compact d' (inodeTable g d' m)) : Ns g d' :=
  h.shift hs (fun hb => absurd hb (by decide))
    (fun m f k hm hl hk => ⟨(live_iff _).mp hl, huse m f k hm hl hk⟩)
    fun m hm => hcompact m (hm.resolve_right fun hb => absurd hb.2 (by decide))

theorem Shift.same (hentry : ∀ n, IsDir g d n → ∀ f k, entry g d' n f k = entry g d n f k) :
    Shift g d d' Dirent.blank (0, 0, 0) fun _ _ _ => True :=
  .blank fun m f k hm _ => ⟨hentry m hm f k, trivial⟩

theorem Ns.same (h : Ns g d)
    (hentry : ∀ n, IsDir g d n → ∀ f k, entry g d' n f k = entry g d n f k)
    (hcompact : ∀ n, IsDir g d n → Compact d (inodeTable g d n) → Compact d' (inodeTable g d' n))
    (huse : ∀ m ≠ 0, (inodeTable g d m).inUse → (inodeTable g d' m).inUse) : Ns g d' :=
  h.shift_blank (.same hentry)
    (fun m f k hm hl _ => huse _ ((Dirent.live_iff _).mp hl) (h.inUse m f k hm hl))
    fun m hm => hcompact m hm (h.compact m hm)

theorem Put.shift (hput : Put g d d' n f k e)
    (hentry : ∀ m, IsDir g d m → m ≠ n → ∀ f k, entry g d' m f k = entry g d m f k)
    (hempty : e.fileType = 1 → ∀ f k, (entry g d' e.inodeNum.toNat f k).live = false) :
    Shift g d d' e (n, f, k) fun _ _ _ => True := by
  rintro m f' k' (hm | ⟨rfl, ht⟩) hl
  · refine ⟨hm, ?_⟩
    by_cases hmn : m = n
    · subst hmn
      rw [hput.entries]
      split_ifs with hs
      · exact .inl ⟨by rw [hs.1, hs.2], rfl⟩
      · exact .inr ⟨rfl, trivial⟩
    · exact .inr ⟨hentry m hm hmn f' k', trivial⟩
  · rw [hempty ht] at hl
    exact absurd hl (by decide)

theorem blockAt_removed (htable : inodeTable g d' = update (inodeTable g d) c Inode.blank)
    (f : ℕ) : blockAt d' (inodeTable g d' c) f = 0 := by
  rw [htable, update_self]
  exact blockAt_of_root_eq_zero (Inode.root_blank _) d'

theorem Put.shift_removed (hput : Put g d d' n f k blank)
    (htable : inodeTable g d' = update (inodeTable g d) c Inode.blank)
    (hentry : ∀ m, IsDir g d m → m ≠ n → m ≠ c → ∀ f k, entry g d' m f k = entry g d m f k) :
    Shift g d d' blank (0, 0, 0) fun m f' k' => ¬ (m = n ∧ f' = f ∧ k' = k) := by
  refine .blank fun m f' k' hm hl => ?_
  by_cases hmc : m = c
  · subst hmc
    rw [entry, slotAt_unmapped (blockAt_removed htable f')] at hl
    exact absurd hl (by decide)
  by_cases hmn : m = n
  · subst hmn
    rw [hput.entries] at hl ⊢
    split_ifs at hl ⊢ with hs
    · exact absurd hl (by decide)
    · exact ⟨rfl, fun hh => hs hh.2⟩
  · exact ⟨hentry m hm hmn hmc f' k', fun hh => hmn hh.1⟩

theorem Moved.shift {n0 f0 k0 : ℕ} (hmoved : Moved g d d' (n0, f0, k0) (n, f, k) e)
    (hdir : e.fileType = 1 → IsDir g d e.inodeNum.toNat) :
    Shift g d d' e (n, f, k) fun m f' k' => (m, f', k') ≠ (n0, f0, k0) := by
  intro m f' k' hm hl'
  refine ⟨hm.elim id fun hm => hm.1 ▸ hdir hm.2, ?_⟩
  rw [hmoved.entries] at hl' ⊢
  split_ifs at hl' ⊢ with hdst hsrc
  · exact .inl ⟨hdst, rfl⟩
  · exact absurd hl' (by decide)
  · exact .inr ⟨rfl, hsrc⟩

/-! Files: what an entry of a directory names that is not of type 1. -/

def IsFile (g : Superblock) (d : ℕ → Block) (c : ℕ) : Prop :=
  ∃ m f k, IsDir g d m ∧ (entry g d m f k).live = true ∧ (entry g d m f k).fileType ≠ 1 ∧
    (entry g d m f k).inodeNum.toNat = c

theorem Ns.isFile_ne_dir (h : Ns g d) (hc : IsFile g d c) (hn : IsDir g d n) : c ≠ n := by
  obtain ⟨m, f, k, hm, hl, ht, rfl⟩ := hc
  exact (h.file_ne_dir hm hl ht hn).symm

theorem Ns.isFile_inUse (h : Ns g d) (hc : IsFile g d c) : (inodeTable g d c).inUse := by
  obtain ⟨m, f, k, hm, hl, -, rfl⟩ := hc
  exact h.inUse m f k hm hl

theorem IsFile.shift (hs : Shift g d d' e t keep) (hc : IsFile g d' c) :
    (e.live ∧ e.fileType ≠ 1 ∧ e.inodeNum.toNat = c) ∨ ∃ m f k, IsDir g d m ∧
      (entry g d m f k).live ∧ (entry g d m f k).fileType ≠ 1 ∧
        (entry g d m f k).inodeNum.toNat = c ∧ keep m f k := by
  obtain ⟨m, f, k, hm, hl, ht, rfl⟩ := hc
  obtain ⟨hd, ⟨-, heq⟩ | ⟨heq, hk⟩⟩ := hs m f k (hs.isDir hm) hl <;> rw [heq] at hl ht ⊢
  · exact .inl ⟨hl, ht, rfl⟩
  · exact .inr ⟨m, f, k, hd, hl, ht, rfl, hk⟩

theorem IsFile.of_same (hentry : ∀ n, IsDir g d n → ∀ f k, entry g d' n f k = entry g d n f k)
    (hc : IsFile g d' c) : IsFile g d c := by
  obtain ⟨hb, -⟩ | ⟨m, f, k, hm, hl, ht, he, -⟩ := hc.shift (.same hentry)
  · exact absurd hb (by decide)
  · exact ⟨m, f, k, hm, hl, ht, he⟩

end

end

end Exploidus.Exfs
