import Exploidus.Lib.Lines
import Exploidus.Rahu.Install
import Mathlib.Data.List.TakeWhile

/-! The package manager's records: which file holds which, how a line is added to one, and how the
lines are read back. -/
namespace Exploidus.Rahu
open Lines List

inductive Record where
  | history
  | manifest (pkg : Path)
  | dependents (pkg : Path)
  | staging (pkg : Path)
  deriving DecidableEq

namespace Record

def path : Record → Path
  | history => installedJson
  | manifest pkg => listPath pkg
  | dependents pkg => dependentsPath pkg
  | staging pkg => stagingPath pkg

def Named (names : Path → Prop) : Record → Prop
  | history => True
  | manifest pkg => names pkg
  | dependents pkg => names pkg
  | staging pkg => names pkg

def mark : Record → UInt8
  | history => 110
  | manifest _ => 116
  | dependents _ => 115
  | staging _ => 117

theorem getLast_path (r : Record) : r.path.getLast? = some r.mark := by
  have hfor : ∀ (dir name suffix : Path) (b : UInt8), suffix.getLast? = some b →
      (pathFor dir name suffix).getLast? = some b := by
    intro dir name suffix b hb
    rw [pathFor, getLast?_append, hb, Option.some_or]
  cases r with
  | history => exact (by decide : installedJson.getLast? = some 110)
  | manifest pkg => exact hfor _ _ _ 116 (by decide)
  | dependents pkg => exact hfor _ _ _ 115 (by decide)
  | staging pkg => exact hfor _ _ _ 117 (by decide)

end Record

structure Names (names : Path → Prop) : Prop where
  line : ∀ a, names a → IsLine 10 a
  plain : ∀ a, names a → 0 ∉ a ∧ 32 ∉ a
  short : ∀ a, names a → a.length ≤ 63
  apart : ∀ a b, names a → names b → a.take 40 = b.take 40 → a = b

theorem take_of_pathFor_eq {dir a b suffix : Path}
    (h : pathFor dir a suffix = pathFor dir b suffix) :
    a.take (60 - dir.length) = b.take (60 - dir.length) :=
  append_cancel_left (append_cancel_right h)

theorem listPath_eq_iff (a b : Path) : listPath a = listPath b ↔ a.take 40 = b.take 40 := by
  constructor
  · exact take_of_pathFor_eq
  intro h
  have hlen : 60 - (ascii "/var/rahu/installed/").length = 40 := by decide
  rw [listPath, listPath, pathFor, pathFor, hlen, h]

theorem Names.path_inj {names : Path → Prop} (hn : Names names) {r s : Record} (hr : r.Named names)
    (hs : s.Named names) (h : r.path = s.path) : r = s := by
  have hmark : r.mark = s.mark := by
    have := congrArg getLast? h
    rw [r.getLast_path, s.getLast_path] at this
    exact Option.some.inj this
  have hpkg : ∀ a b : Path, names a → names b → a.take 40 = b.take 40 → a = b := hn.apart
  rcases r with _ | a | a | a <;> rcases s with _ | b | b | b
  case history.history => rfl
  case manifest.manifest => rw [hpkg a b hr hs ((listPath_eq_iff a b).mp h)]
  case dependents.dependents => rw [hpkg a b hr hs (take_of_pathFor_eq h)]
  case staging.staging =>
    have h46 : a.take 46 = b.take 46 := take_of_pathFor_eq h
    have h40 := congrArg (take 40) h46
    rw [take_take, take_take] at h40
    rw [hpkg a b hr hs h40]
  all_goals exact absurd hmark (by simp [Record.mark])

variable {Key : Type}

/-- The names are as they should be, and the paths of their records name different files. -/
structure Host.Separates (host : Host Key) (names : Path → Prop) : Prop extends Names names where
  resolves : ∀ r s : Record, r.Named names → s.Named names →
    host.resolve r.path = host.resolve s.path → r.path = s.path

theorem Host.Separates.ne {host : Host Key} {names : Path → Prop} (hn : host.Separates names)
    {r s : Record} (hr : r.Named names) (hs : s.Named names) (hne : r ≠ s) :
    host.resolve r.path ≠ host.resolve s.path :=
  fun h => hne (hn.path_inj hr hs (hn.resolves r s hr hs h))

/-- No operation fails, and what is read or saved at once is all that was asked for. -/
structure Host.Flawless (host : Host Key) : Prop extends host.NoFaults where
  reads_all : ∀ k, 16384 ≤ (host.outcome k).reads
  saves_all : ∀ k, ∃ m, (host.outcome k).saves = some m ∧ 16384 ≤ m

def blockerLine (host : Host Key) (pkg line : Path) (found : Bool) (w : World Key) :
    Bool × World Key :=
  if line = pkg then (found, w)
  else
    let (installed, w) := isInstalled host line w
    (found || installed, w)

def unlinkLine [DecidableEq Key] (host : Host Key) (line : Path) (_ : Unit) (w : World Key) :
    Unit × World Key := ((), (unlink host line w).2)

section
variable {host : Host Key} {path line : Path} {data : List UInt8} {w w' : World Key}

theorem contents_congr (h : w'.files (host.resolve path) = w.files (host.resolve path)) :
    contents host path w' = contents host path w := by
  rw [contents, contents, h]

theorem Touch.contents {p : Key → Prop} (h : Touch p w w') (hp : ¬ p (host.resolve path)) :
    contents host path w' = contents host path w := contents_congr (h.files _ hp)

theorem contents_eq_getD (host : Host Key) (path : Path) (w : World Key) :
    contents host path w = ((w.files (host.resolve path)).getD ⟨[], 0o644⟩).bytes := by
  rw [contents]
  rcases w.files (host.resolve path) with _ | f <;> rfl

/-! Reading. -/

section
variable (hf : host.Flawless)
include hf

theorem openFile_ok (path : Path) (w : World Key) :
    (openFile host path w).1 = (w.files (host.resolve path)).map File.bytes := by
  unfold openFile
  rcases w.files (host.resolve path) with _ | f
  · rfl
  · exact if_pos (hf.opens _)

theorem isInstalled_iff (pkg : Path) (w : World Key) :
    (isInstalled host pkg w).1 ↔ Listed host w pkg := by
  change (openFile host (listPath pkg) w).1.isSome ↔ _
  rw [openFile_ok hf, Option.isSome_map]
  rfl

theorem readFront_eq {limit : ℕ} (hw : (contents host path w).length ≤ limit) (hlimit : limit ≤ 16384) :
    (readFront host limit path w).1 = contents host path w := by
  have hopen := openFile_ok hf path w
  unfold readFront
  generalize openFile host path w = r at *
  obtain ⟨c, w1⟩ := r
  obtain rfl : c = (w.files (host.resolve path)).map File.bytes := hopen
  rw [contents] at hw ⊢
  generalize w.files (host.resolve path) = file at hw ⊢
  rcases file with _ | f
  · rfl
  have hall := hf.reads_all w1.tick
  dsimp only at hw
  exact take_of_length_le (by omega)

theorem readLines_line {σ : Type} (act : Path → σ → World Key → σ × World Key) (l line : Path)
    (src : List UInt8) (s : σ) (w : World Key) (hl : 10 ∉ l) (hlen : line.length + l.length ≤ 255)
    (hne : line ++ l ≠ []) :
    ∃ w1, Same w w1 ∧ readLines host act line (l ++ 10 :: src) s w =
      readLines host act [] src (act (cstr (line ++ l)) s w1).1 (act (cstr (line ++ l)) s w1).2 := by
  have hreads : ∀ k, (host.outcome k).reads ≠ 0 := fun k => (hf.reads k).ne'
  induction l generalizing line w with
  | nil =>
    rw [append_nil] at hne ⊢
    refine ⟨w.tock, Same.tock w, ?_⟩
    rw [nil_append, readLines, if_neg (hreads _), if_pos (.inl rfl), if_neg hne]
  | cons c l ih =>
    rw [mem_cons, not_or] at hl
    rw [length_cons] at hlen
    obtain ⟨w1, hsame, heq⟩ := ih (line ++ [c]) w.tock hl.2
      (by rw [length_append, length_singleton]; omega) (by simp)
    rw [append_assoc, singleton_append] at heq
    refine ⟨w1, (Same.tock w).trans hsame, ?_⟩
    have hinside : ¬ (c = 10 ∨ 255 ≤ line.length) := by
      rintro (h | h)
      · exact hl.1 h.symm
      · omega
    rw [cons_append, readLines, if_neg (hreads _), if_neg hinside, heq]

theorem readLines_rule {σ : Type} (act : Path → σ → World Key → σ × World Key)
    (P : List Path → σ → World Key → Prop) (hsame : ∀ ls s w w', Same w w' → P ls s w → P ls s w')
    (hact : ∀ l ls s w, P (l :: ls) s w → P ls (act (cstr l) s w).1 (act (cstr l) s w).2)
    {ls : List Path} (hls : ∀ l ∈ ls, IsLine 10 l ∧ l.length ≤ 255) {s : σ} {w : World Key}
    (h : P ls s w) :
    P [] (readLines host act [] (unlines 10 ls) s w).1 (readLines host act [] (unlines 10 ls) s w).2 := by
  induction ls generalizing s w with
  | nil => exact hsame _ _ _ _ (Same.tock w) h
  | cons l ls ih =>
    obtain ⟨⟨hne, hl⟩, hlen⟩ := hls l (mem_cons_self ..)
    obtain ⟨w1, hs, heq⟩ := readLines_line hf act l [] (unlines 10 ls) s w hl (by simpa using hlen)
      (by simpa using hne)
    rw [unlines_cons, heq]
    exact ih (fun m hm => hls m (mem_cons_of_mem _ hm)) (hact l ls s w1 (hsame _ _ _ _ hs h))

end

/-! Writing. -/

variable [DecidableEq Key]

theorem contents_set_tock (f : File) :
    contents host path (w.set (host.resolve path) (some f)).tock = f.bytes := by
  rw [contents, set_tock_files]

theorem fileWrite_grows (host : Host Key) (path path' : Path) (data : List UInt8) (w : World Key) :
    (contents host path' w).length ≤ (contents host path' (fileWrite host path data w)).length := by
  by_cases hk : host.resolve path' = host.resolve path
  · have hsame : ∀ v : World Key, contents host path' v = contents host path v := by
      intro v
      rw [contents, contents, hk]
    rw [hsame, hsame, fileWrite]
    split
    · exact le_rfl
    rw [contents_set_tock, contents_eq_getD, length_append, length_take, length_drop]
    omega
  · rw [(fileWrite_touch host path data w).contents hk]

theorem appendLine_grows (host : Host Key) (path path' line : Path) (w : World Key) :
    (contents host path' w).length ≤ (contents host path' (appendLine host path line w)).length := by
  have hfront := (readFront_same host 16128 path w).files
  unfold appendLine
  generalize readFront host 16128 path w = r at *
  rw [← contents_congr (congrFun hfront (host.resolve path'))]
  exact fileWrite_grows host path path' _ r.2

theorem writeManifestEntry_grows (host : Host Key) (pkg path' : Path) (size : ℕ) (w : World Key) :
    (contents host path' w).length ≤
      (contents host path' (writeManifestEntry host pkg size w)).length := by
  have hfront := (readFront_same host 16128 installedJson w).files
  unfold writeManifestEntry
  generalize readFront host 16128 installedJson w = r at *
  rw [← contents_congr (congrFun hfront (host.resolve path'))]
  exact fileWrite_grows host installedJson path' _ r.2

section
variable (hf : host.Flawless)
include hf

theorem fileWrite_contents (w : World Key) (hdata : data.length ≤ 16384) :
    contents host path (fileWrite host path data w) =
      data ++ (contents host path w).drop data.length := by
  obtain ⟨m, hm, hle⟩ := hf.saves_all w.tick
  have hn : min m data.length = data.length := by omega
  rw [fileWrite, hm]
  dsimp only
  rw [contents_set_tock, hn, take_length, contents_eq_getD]

/-- `append_line` adds a line to a file that is not too long. -/
theorem appendLine_contents (hw : (contents host path w).length ≤ 16128) (hl : line.length ≤ 254) :
    contents host path (appendLine host path line w) = contents host path w ++ (line ++ [10]) := by
  have hfront := readFront_eq hf hw (by norm_num)
  have hsame := (readFront_same host 16128 path w).files
  unfold appendLine
  generalize readFront host 16128 path w = r at *
  obtain ⟨buf, w1⟩ := r
  dsimp only at hfront hsame ⊢
  have hold : contents host path w1 = contents host path w :=
    contents_congr (congrFun hsame (host.resolve path))
  subst hfront
  have htake : line.take (16382 - (contents host path w).length) = line :=
    take_of_length_le (by omega)
  rw [htake, fileWrite_contents hf w1 (by simp; omega), hold, drop_of_length_le (by simp),
    append_nil, append_assoc]

theorem unlink_none (path : Path) (w : World Key) :
    (unlink host path w).2.files (host.resolve path) = none := by
  unfold unlink
  rcases hx : w.files (host.resolve path) with _ | f
  · exact hx
  · rw [if_pos ⟨rfl, hf.unlinks _⟩, set_tock_files]

/-! Removing. -/

omit hf [DecidableEq Key] in
theorem findBlockers_eq (host : Host Key) (pkg : Path) (w : World Key) : findBlockers host pkg w =
      match openFile host (dependentsPath pkg) w with
      | (none, w) => (false, w)
      | (some src, w) => readLines host (blockerLine host pkg) [] src false w := rfl

omit hf in
theorem cmdRemove_eq (host : Host Key) (pkg : Path) (w : World Key) : cmdRemove host pkg w =
      if pkg = [] then (false, w)
      else
        match findBlockers host pkg w with
        | (true, w) => (false, w)
        | (false, w) =>
          match openFile host (listPath pkg) w with
          | (none, w) => (false, w)
          | (some src, w) =>
            (true, (removeManifestEntry host pkg (unlink host (listPath pkg)
              (readLines host (unlinkLine host) [] src () w).2).2).note (.removed pkg)) := rfl

omit hf in
theorem removeManifestEntry_touch (host : Host Key) (pkg : Path) (w : World Key) :
    Touch (· = host.resolve installedJson) w (removeManifestEntry host pkg w) := by
  have hs := openFile_same host installedJson w
  unfold removeManifestEntry
  generalize openFile host installedJson w = r at *
  rcases r with ⟨_ | src, w1⟩
  · exact hs.touch
  · exact (hs.trans (Same.tock w1)).touch.trans (fileWrite_touch host installedJson _ _)

theorem removeManifestEntry_lines {pkg l : Path} (hw : (contents host installedJson w).length ≤ 16128)
    (hl : l ∈ lines 10 (contents host installedJson w)) (hown : ownLine pkg l = false) :
    l ∈ lines 10 (contents host installedJson (removeManifestEntry host pkg w)) := by
  have hopen := openFile_ok hf installedJson w
  have hs := openFile_same host installedJson w
  unfold removeManifestEntry
  generalize openFile host installedJson w = r at *
  obtain ⟨c, w1⟩ := r
  obtain rfl : c = (w.files (host.resolve installedJson)).map File.bytes := hopen
  rcases hfile : w.files (host.resolve installedJson) with _ | f
  · rwa [Option.map_none, contents_congr (congrFun hs.files _)]
  rw [contents, hfile] at hw hl
  dsimp only [Option.map_some] at hw hl ⊢
  have hbuf : (readOnce host 16383 f.bytes w1).1 = f.bytes := by
    have := hf.reads_all w1.tick
    exact take_of_length_le (by omega)
  rw [hbuf]
  generalize hkept : ((f.bytes.splitOn 10).filter fun line => line ≠ [] ∧ ownLine pkg line = false)
    = kept
  have hlines : ∀ m ∈ kept, IsLine 10 m := by
    intro m hm
    simp only [← hkept, mem_filter, decide_eq_true_eq] at hm
    exact ⟨hm.2.1, not_mem_of_mem_splitOn hm.1⟩
  have hlen : (unlines 10 kept).length ≤ 16384 := by
    have h1 : (unlines 10 kept).length ≤ (unlines 10 (f.bytes.splitOn 10)).length := by
      rw [← hkept]
      exact length_unlines_filter_le _ _
    rw [unlines_splitOn, length_append, length_singleton] at h1
    omega
  have hmem : l ∈ kept := by
    simp only [lines, mem_filter, decide_eq_true_eq] at hl
    simp only [← hkept, mem_filter, decide_eq_true_eq]
    exact ⟨hl.1, hl.2, hown⟩
  change l ∈ lines 10 (contents host installedJson (fileWrite host installedJson (unlines 10 kept) _))
  rw [fileWrite_contents hf _ hlen, lines_unlines_append hlines]
  exact mem_append_left _ hmem

omit hf in
theorem ownLine_other {pkg b : Path} (hpkg : 32 ∉ pkg) (hb : 32 ∉ b) (hne : b ≠ pkg) (rest : Path) :
    ownLine pkg (b ++ 32 :: rest) = false := by
  by_contra hown
  simp only [ownLine, Bool.not_eq_false, Bool.and_eq_true, Bool.or_eq_true, beq_iff_eq,
    decide_eq_true_eq] at hown
  obtain ⟨⟨tail, htail⟩, hend⟩ := hown
  have hsplit := append_eq_append_iff.mp htail
  rcases hsplit with ⟨c, hc, hrest⟩ | ⟨c, hc, hrest⟩
  · -- the name goes on where the line should have ended
    rcases c with _ | ⟨x, c⟩
    · exact hne (by rw [hc, append_nil])
    have hx : x ∈ b := by rw [hc]; simp
    rw [hc] at hend
    simp at hend
    exact hb (hend ▸ hx)
  · rcases c with _ | ⟨x, c⟩
    · exact hne (by rw [hc, append_nil])
    rw [cons_append, cons.injEq] at hrest
    exact hpkg (by rw [hc, hrest.1]; simp)

omit hf in
theorem cstr_eq {l : Path} (h : 0 ∉ l) : cstr l = l := by
  rw [cstr, takeWhile_eq_self_iff]
  intro x hx
  exact decide_eq_true fun h0 => h (h0 ▸ hx)

omit hf [DecidableEq Key] in
theorem blockerLine_same (host : Host Key) (pkg line : Path) (found : Bool) (w : World Key) :
    Same w (blockerLine host pkg line found w).2 := by
  unfold blockerLine
  split_ifs
  · exact Same.refl w
  · exact isInstalled_same host line w

omit [DecidableEq Key] in
theorem blockerLine_true {pkg line : Path} {found : Bool}
    (h : found ∨ line ≠ pkg ∧ Listed host w line) :
    (blockerLine host pkg line found w).1 := by
  unfold blockerLine
  rcases h with rfl | ⟨hne, hl⟩
  · split_ifs <;> rfl
  rw [if_neg hne]
  change (found || (isInstalled host line w).1)
  rw [(isInstalled_iff hf line w).mpr hl, Bool.or_true]

omit [DecidableEq Key] in
theorem findBlockers_spec {pkg : Path} {ls : List Path}
    (hls : contents host (dependentsPath pkg) w = unlines 10 ls)
    (hok : ∀ l ∈ ls, IsLine 10 l ∧ 0 ∉ l ∧ l.length ≤ 63) :
    Same w (findBlockers host pkg w).2 ∧
      ∀ q ∈ ls, q ≠ pkg → Listed host w q → (findBlockers host pkg w).1 := by
  have hopen := openFile_ok hf (dependentsPath pkg) w
  have hs := openFile_same host (dependentsPath pkg) w
  rw [findBlockers_eq]
  generalize openFile host (dependentsPath pkg) w = r at *
  obtain ⟨c, w1⟩ := r
  obtain rfl : c = (w.files (host.resolve (dependentsPath pkg))).map File.bytes := hopen
  rw [contents] at hls
  generalize w.files (host.resolve (dependentsPath pkg)) = file at hls ⊢
  rcases file with _ | f
  · obtain rfl := eq_nil_of_unlines_eq_nil hls.symm
    exact ⟨hs, by simp⟩
  dsimp only [Option.map_some] at hls ⊢
  rw [hls]
  -- an installed package is still to come, or it was found
  have hrule := readLines_rule hf (blockerLine host pkg)
    (fun rest found v => Same w v ∧ (∀ l ∈ rest, 0 ∉ l) ∧
      ∀ q ∈ ls, q ≠ pkg → Listed host w q → found ∨ q ∈ rest)
    (fun rest found v v' hv h => ⟨h.1.trans hv, h.2⟩)
  obtain ⟨hsame, -, hfound⟩ := hrule (by
      rintro l rest found v ⟨hv, hzero, hfound⟩
      rw [cstr_eq (hzero l (mem_cons_self ..))]
      refine ⟨hv.trans (blockerLine_same host pkg l found v),
        fun m hm => hzero m (mem_cons_of_mem _ hm), fun q hq hne hl => ?_⟩
      rcases hfound q hq hne hl with h | h
      · exact .inl (blockerLine_true hf (.inl h))
      rcases mem_cons.mp h with rfl | h
      · exact .inl (blockerLine_true hf (.inr ⟨hne, by rw [Listed, hv.files]; exact hl⟩))
      · exact .inr h)
    (fun l hl => ⟨(hok l hl).1, (hok l hl).2.2.trans (by norm_num)⟩)
    ⟨hs, fun l hl => (hok l hl).2.1, fun q hq _ _ => .inr hq⟩
  exact ⟨hsame, fun q hq hne hl => (hfound q hq hne hl).resolve_right not_mem_nil⟩

theorem unlinkLines_spec {ls : List Path} (hok : ∀ l ∈ ls, IsLine 10 l ∧ 0 ∉ l ∧ l.length ≤ 200) :
    Touch (fun key => ∃ l ∈ ls, key = host.resolve l) w
        (readLines host (unlinkLine host) [] (unlines 10 ls) () w).2 ∧
      ∀ l ∈ ls, (readLines host (unlinkLine host) [] (unlines 10 ls) () w).2.files
        (host.resolve l) = none := by
  have hrule := readLines_rule hf (unlinkLine host)
    (fun rest _ v => Touch (fun key => ∃ l ∈ ls, key = host.resolve l) w v ∧
      (∀ l ∈ rest, l ∈ ls) ∧ ∀ l ∈ ls, v.files (host.resolve l) = none ∨ l ∈ rest)
    (fun rest _ v v' hv h => ⟨h.1.trans hv.touch, h.2.1, by rw [hv.files]; exact h.2.2⟩)
  obtain ⟨htouch, -, hgone⟩ := hrule (by
      rintro l rest _ v ⟨hv, hrest, hgone⟩
      have hl := hrest l (mem_cons_self ..)
      rw [cstr_eq (hok l hl).2.1]
      have ht := unlink_touch host l v
      refine ⟨hv.trans (ht.mono fun key hkey => ⟨l, hl, hkey⟩),
        fun m hm => hrest m (mem_cons_of_mem _ hm), fun m hm => ?_⟩
      by_cases hk : host.resolve m = host.resolve l
      · left
        rw [hk]
        exact unlink_none hf l v
      rcases hgone m hm with h | h
      · exact .inl ((ht.files _ hk).trans h)
      rcases mem_cons.mp h with rfl | h
      · exact absurd rfl hk
      · exact .inr h)
    (fun l hl => ⟨(hok l hl).1, (hok l hl).2.2.trans (by norm_num)⟩)
    ⟨(Same.refl w).touch, fun l hl => hl, fun l hl => .inr hl⟩
  exact ⟨htouch, fun l hl => (hgone l hl).resolve_right not_mem_nil⟩

inductive RemoveStep (host : Host Key) (pkg : Path) (w : World Key) (r : Bool × World Key) : Prop
  | refused (result : r.1 = false) (same : Same w r.2)
  | removed (f : File) (w1 w2 : World Key) (free : (findBlockers host pkg w).1 = false)
      (file : w.files (host.resolve (listPath pkg)) = some f) (same : Same w w1)
      (files : w2 = (readLines host (unlinkLine host) [] f.bytes () w1).2)
      (result : r = (true, (removeManifestEntry host pkg (unlink host (listPath pkg) w2).2).note
        (.removed pkg)))

omit hf in
theorem cmdRemove_step {pkg : Path} (hne : pkg ≠ []) (hs : Same w (findBlockers host pkg w).2) :
    RemoveStep host pkg w (cmdRemove host pkg w) := by
  rw [cmdRemove_eq, if_neg hne]
  rcases hb : findBlockers host pkg w with ⟨_ | _, w1⟩ <;> rw [hb] at hs
  · have hopen := openFile_same host (listPath pkg) w1
    have hsome : ∀ src, (openFile host (listPath pkg) w1).1 = some src → _ :=
      fun src h => openFile_some h
    dsimp only
    generalize openFile host (listPath pkg) w1 = r at *
    rcases r with ⟨_ | src, w2⟩
    · exact .refused rfl (hs.trans hopen)
    obtain ⟨f, hfile, rfl⟩ := hsome src rfl
    rw [hs.files] at hfile
    exact .removed f w2 _ (by rw [hb]) hfile (hs.trans hopen) rfl rfl
  · exact .refused rfl hs

end

end

end Exploidus.Rahu
