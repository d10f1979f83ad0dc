import Exploidus.Rahu.Effects

/-! When a reported installation is a complete one. -/
namespace Exploidus.Rahu
open Function List
variable {Key : Type}

def Host.IsRecord (host : Host Key) (key : Key) : Prop :=
  key = host.resolve installedJson ∨ ∃ pkg, key = host.resolve (listPath pkg) ∨
    key = host.resolve (dependentsPath pkg) ∨ key = host.resolve (stagingPath pkg)

/-- Modes and records are always written, and no archive is staged over a manifest. -/
structure Host.Steady (host : Host Key) : Prop where
  chmods : ∀ k, (host.outcome k).chmods = true
  saves : ∀ k, (host.outcome k).saves.isSome = true
  apart : ∀ a b, host.resolve (stagingPath a) ≠ host.resolve (listPath b)

/-- The files of an archive are different ones and none is a record; and there is at most one, or they
are all there and no operation fails. -/
def ArchiveOk (host : Host Key) (bytes : List UInt8) : Prop :=
  ∀ deps count rest, getPreamble bytes = some ((deps, count), rest) →
    (∀ path ∈ headPaths count rest, ¬ host.IsRecord (host.resolve path)) ∧
      ((headPaths count rest).map host.resolve).Nodup ∧
      (count ≤ 1 ∨ (getFiles count rest).isSome = true ∧ host.NoFaults)

/-- The archive is well formed, its files are there with their bytes and modes, and so are the
packages that it needs. -/
def Unpacked (host : Host Key) (bytes : List UInt8) (w : World Key) : Prop :=
  ∃ a, Archive.parse bytes = some a ∧
    (∀ e ∈ a.files, w.files (host.resolve e.path) = some ⟨e.data, e.mode⟩) ∧
    ∀ dep ∈ a.deps, Listed host w dep

def Keeps (host : Host Key) (w w' : World Key) : Prop := ∀ pkg, Listed host w pkg → Listed host w' pkg

def Staged (w : World Key) : Prop := ∃ pkg, w.staging = stagingPath pkg

def Restaged (w w' : World Key) : Prop := w'.staging = w.staging ∨ Staged w'

section
variable {host : Host Key} {w w' w'' : World Key} {bytes : List UInt8} {pkg : Path}

theorem Keeps.trans (h : Keeps host w w') (h' : Keeps host w' w'') : Keeps host w w'' :=
  fun pkg hp => h' pkg (h pkg hp)

theorem Same.keeps (h : Same w w') : Keeps host w w' := by
  intro pkg hp
  unfold Listed at *
  rwa [h.files]

theorem Touch.keeps {p : Key → Prop} (h : Touch p w w')
    (hp : ∀ pkg, ¬ p (host.resolve (listPath pkg))) : Keeps host w w' := by
  intro pkg hpkg
  unfold Listed at *
  rwa [h.files _ (hp pkg)]

theorem Restaged.trans (h : Restaged w w') (h' : Restaged w' w'') : Restaged w w'' := by
  rcases h' with h' | h'
  · rwa [Restaged, Staged, h']
  · exact .inr h'

theorem Restaged.staged (h : Restaged w w') (hs : Staged w) : Staged w' := by
  rcases h with h | h
  · rwa [Staged, h]
  · exact h

theorem lookupHash_same (host : Host Key) (pkg : Path) (line src : List UInt8) (w : World Key) :
    Same w (lookupHash host pkg line src w).2 := by
  induction src generalizing line w with
  | nil => exact Same.tock w
  | cons ch src ih =>
    rw [lookupHash]
    split_ifs
    · exact Same.tock w
    · split
      · exact Same.tock w
      · exact (Same.tock w).trans (ih ..)
    · exact (Same.tock w).trans (ih ..)

theorem indexLookupHash_same (host : Host Key) (pkg : Path) (w : World Key) :
    Same w (indexLookupHash host pkg w).2 := by
  have hs := openFile_same host indexJson w
  unfold indexLookupHash
  generalize openFile host indexJson w = r at *
  rcases r with ⟨_ | src, w'⟩
  · exact hs
  · exact hs.trans (lookupHash_same host pkg [] src w')

variable {count : ℕ} {rest src : List UInt8} {deps : List Path}
  {install : Option (Path → World Key → Bool × World Key)}

theorem headPaths_eq {es : List Entry} (h : getFiles count src = some (es, rest)) :
    headPaths count src = es.map Entry.path := by
  induction count generalizing src es with
  | zero =>
    cases h
    rfl
  | succ count ih =>
    simp only [getFiles, getEntry, Get.andThen, Get.give, Option.bind_eq_some_iff] at h
    obtain ⟨⟨e, src2⟩, ⟨⟨head, src1⟩, hhead, ⟨data, src2'⟩, hdata, he⟩, ⟨es', rest'⟩, hrest, hes⟩ := h
    cases he
    cases hes
    rw [headPaths_succ count hhead hdata, ih hrest]
    rfl

theorem parse_some {a : Archive} (h : Archive.parse bytes = some a) :
    ∃ count src rest, getPreamble bytes = some ((a.deps, count), src) ∧
      getFiles count src = some (a.files, rest) := by
  simp only [Archive.parse, Get.andThen, Get.give, Option.map_eq_some_iff,
    Option.bind_eq_some_iff] at h
  obtain ⟨⟨a', rest⟩, ⟨⟨⟨deps, count⟩, src⟩, hpre, ⟨es, rest'⟩, hes, ha⟩, rfl⟩ := h
  cases ha
  exact ⟨count, src, _, hpre, hes⟩

theorem Unpacked.touch {p : Key → Prop} (h : Unpacked host bytes w) (hok : ArchiveOk host bytes)
    (ht : Touch p w w') (hp : ∀ key, p key → host.IsRecord key) (hk : Keeps host w w') :
    Unpacked host bytes w' := by
  obtain ⟨a, ha, hfiles, hdeps⟩ := h
  obtain ⟨count, src, rest, hpre, hes⟩ := parse_some ha
  refine ⟨a, ha, fun e he => ?_, fun dep hdep => hk dep (hdeps dep hdep)⟩
  have hpath : e.path ∈ headPaths count src := by
    rw [headPaths_eq hes]
    exact mem_map_of_mem he
  rw [ht.files _ fun hx => (hok _ _ _ hpre).1 _ hpath (hp _ hx), hfiles e he]

variable [DecidableEq Key]

theorem fileWrite_keeps (host : Host Key) (path : Path) (data : List UInt8) (w : World Key) :
    Keeps host w (fileWrite host path data w) := by
  intro pkg hpkg
  unfold Listed fileWrite at *
  split
  · exact hpkg
  by_cases hk : host.resolve (listPath pkg) = host.resolve path
  · rw [hk, set_tock_files]
    rfl
  · rwa [(set_tock_touch w _ _).files _ hk]

theorem appendLine_keeps (host : Host Key) (path line : Path) (w : World Key) :
    Keeps host w (appendLine host path line w) :=
  (readFront_same host 16128 path w).keeps.trans (fileWrite_keeps host path _ _)

theorem writeManifestEntry_keeps (host : Host Key) (pkg : Path) (size : ℕ) (w : World Key) :
    Keeps host w (writeManifestEntry host pkg size w) :=
  (readFront_same host 16128 installedJson w).keeps.trans (fileWrite_keeps host installedJson _ _)

def Installs (host : Host Key) (f : Path → World Key → Bool × World Key) : Prop :=
  ∀ pkg w, (f pkg w).1 = true →
    Listed host (f pkg w).2 pkg ∧ Keeps host w (f pkg w).2 ∧ Staged (f pkg w).2

theorem getDeps_succ {name : List UInt8} {src' : List UInt8} {ds : List Path}
    (get : getField 63 src = some (name, src')) (getRest : getDeps count src' = some (ds, rest)) :
    getDeps (count + 1) src = some (cstr name :: ds, rest) := by
  simp [getDeps, Get.andThen, Get.give, get, getRest]

/-- What happens for a dependency: it is there, or it is installed, unless nothing can be. -/
def Tried (host : Host Key) (install : Option (Path → World Key → Bool × World Key)) (dep : Path)
    (ok : Bool) (w w' : World Key) : Prop :=
  (Same w w' ∧ (ok = true → Listed host w' dep)) ∨
    ∃ f ∈ install, ∃ w0, Same w w0 ∧ f dep w0 = (ok, w')

inductive DepsStep (host : Host Key)
    (install : Option (Path → World Key → Bool × World Key)) (pkg : Path) (count : ℕ)
    (deps : List Path) (src : List UInt8) (w : World Key)
    (r : Option (List Path) × List UInt8 × World Key) : Prop
  | noName (result : r.1 = none) (same : Same w r.2.2)
  | failed (name src' : List UInt8) (w1 : World Key) (get : getField 63 src = some (name, src'))
      (tried : Tried host install (cstr name) false w w1) (result : r.1 = none) (world : r.2.2 = w1)
  | next (name src' : List UInt8) (w1 : World Key) (get : getField 63 src = some (name, src'))
      (tried : Tried host install (cstr name) true w w1)
      (rest : r = unpackDeps host install pkg count (deps ++ [cstr name]) src'
        (recordDependent host (cstr name) pkg w1))

theorem unpackDeps_step (host : Host Key) (install : Option (Path → World Key → Bool × World Key))
    (pkg : Path) (count : ℕ) (deps : List Path) (src : List UInt8) (w : World Key) : DepsStep host
      install pkg count deps src w (unpackDeps host install pkg (count + 1) deps src w) := by
  obtain ⟨hsame, hread⟩ := readField_reads host 63 src w
  rw [unpackDeps]
  generalize readField host 63 src w = r at *
  rcases r with ⟨_ | name, src', w1⟩
  · exact .noName rfl hsame
  have hget := hread name rfl
  have hin := isInstalled_same host (cstr name) w1
  have htrue : (isInstalled host (cstr name) w1).1 → _ := isInstalled_true
  have hsame' := hsame.trans hin
  dsimp only at hget hsame' ⊢
  generalize isInstalled host (cstr name) w1 = r at *
  rcases r with ⟨_ | _, w2⟩
  · rcases install with _ | f
    · exact .failed name src' w2 hget (.inl ⟨hsame', fun h => by cases h⟩) rfl rfl
    dsimp only
    rcases hr : f (cstr name) w2 with ⟨_ | _, w3⟩
    · exact .failed name src' w3 hget (.inr ⟨f, rfl, w2, hsame', hr⟩) rfl rfl
    · exact .next name src' w3 hget (.inr ⟨f, rfl, w2, hsame', hr⟩) rfl
  · exact .next name src' w2 hget (.inl ⟨hsame', fun _ => hin.keeps _ (htrue rfl)⟩) rfl

theorem unpackDeps_getDeps {deps ds : List Path}
    (h : (unpackDeps host install pkg count deps src w).1 = some ds) :
    ∃ new, getDeps count src = some (new, (unpackDeps host install pkg count deps src w).2.1) ∧
      ds = deps ++ new := by
  induction count generalizing deps src w with
  | zero =>
    cases h
    exact ⟨[], rfl, (append_nil _).symm⟩
  | succ count ih =>
    have hstep := unpackDeps_step host install pkg count deps src w
    generalize unpackDeps host install pkg (count + 1) deps src w = r at *
    cases hstep with
    | noName result same => rw [result] at h; cases h
    | failed name src' w1 get tried result world => rw [result] at h; cases h
    | next name src' w1 get tried rest =>
      rw [rest] at h ⊢
      obtain ⟨new, hnew, rfl⟩ := ih h
      exact ⟨cstr name :: new, getDeps_succ get hnew, by simp⟩

omit [DecidableEq Key] in
theorem Tried.installs {dep : Path} (h : Tried host install dep true w w')
    (hin : ∀ f ∈ install, Installs host f) :
    Keeps host w w' ∧ Restaged w w' ∧ Listed host w' dep := by
  rcases h with ⟨hs, hl⟩ | ⟨f, hf, w0, hs, heq⟩
  · exact ⟨hs.keeps, .inl hs.staging, hl rfl⟩
  · have hdone := hin f hf dep w0 (by rw [heq])
    rw [heq] at hdone
    exact ⟨hs.keeps.trans hdone.2.1, .inr hdone.2.2, hdone.1⟩

theorem unpackDeps_some (hin : ∀ f ∈ install, Installs host f) {ds : List Path}
    (h : unpackDeps host install pkg count deps src w = (some ds, rest, w')) :
    ∃ new, getDeps count src = some (new, rest) ∧ ds = deps ++ new ∧ Keeps host w w' ∧
      Restaged w w' ∧ ∀ dep ∈ new, Listed host w' dep := by
  induction count generalizing deps src w with
  | zero =>
    cases h
    exact ⟨[], rfl, (append_nil _).symm, (Same.refl _).keeps, .inl rfl, by simp⟩
  | succ count ih =>
    have hstep := unpackDeps_step host install pkg count deps src w
    rw [h] at hstep
    cases hstep with
    | noName result same => cases result
    | failed name src' w1 get tried result world => cases result
    | next name src' w1 get tried rest =>
      obtain ⟨hk, hst, hl⟩ := tried.installs hin
      obtain ⟨new, hnew, rfl, hk', hst', hl'⟩ := ih rest.symm
      have hrec := appendLine_keeps host (dependentsPath (cstr name)) pkg w1
      have hrst : Restaged w1 (recordDependent host (cstr name) pkg w1) :=
        .inl (appendLine_touch host _ pkg w1).staging
      refine ⟨cstr name :: new, getDeps_succ get hnew, by simp, (hk.trans hrec).trans hk',
        (hst.trans hrst).trans hst', fun dep hdep => ?_⟩
      rcases mem_cons.mp hdep with rfl | hdep
      · exact hk' _ (hrec _ hl)
      · exact hl' dep hdep

theorem unpackContents_pos (hh : host.Steady)
    (hpaths : ∀ path ∈ headPaths count src, ¬ host.IsRecord (host.resolve path))
    (hnd : ((headPaths count src).map host.resolve).Nodup)
    (hcount : count ≤ 1 ∨ (getFiles count src).isSome ∧ host.NoFaults)
    (h : 0 < (unpackContents host pkg deps count src w).1) :
    Listed host (unpackContents host pkg deps count src w).2 pkg ∧
      Keeps host w (unpackContents host pkg deps count src w).2 ∧
      (unpackContents host pkg deps count src w).2.staging = w.staging ∧
      ∃ es rest, getFiles count src = some (es, rest) ∧
        ∀ e ∈ es, (unpackContents host pkg deps count src w).2.files (host.resolve e.path) =
          some ⟨e.data, e.mode⟩ := by
  have hman : ∀ path ∈ headPaths count src, host.resolve path ≠ host.resolve (listPath pkg) :=
    fun path hp he => hpaths path hp (.inr ⟨pkg, .inl he⟩)
  have hun := unlink_touch host (listPath pkg) w
  unfold unpackContents at h ⊢
  generalize (unlink host (listPath pkg) w).2 = w1 at *
  obtain ⟨htouch, hstopped, hcomplete, hlisted⟩ :=
    unpackFiles_run host (listPath pkg) count [] src w1
  have hall : (getFiles count src).isSome ∧ host.NoFaults →
      (unpackFiles host (listPath pkg) count [] src w1).2.1 :=
    fun hx => unpackFiles_ok hx.2 hx.1 w1
  generalize unpackFiles host (listPath pkg) count [] src w1 = r at *
  obtain ⟨done, complete, w2⟩ := r
  dsimp only at *
  have hne : done ≠ [] := by
    rintro rfl
    rw [length_nil] at h
    split_ifs at h <;> omega
  have hc : complete := by
    rcases hcount with hcount | hcount
    · by_contra hno
      have hlt := hstopped (by simpa using hno)
      have := length_pos_iff.mpr hne
      rw [length_nil] at hlt
      omega
    · exact hall hcount
  obtain ⟨es, rest, hes, -, hfiles⟩ := hcomplete hc
  have hl := hlisted hh.saves hman (fun h => absurd rfl h) hne
  rw [if_neg hne]
  refine ⟨hl, ?_, htouch.staging.trans hun.staging, es, rest, hes, hfiles hh.chmods hnd hman⟩
  intro q hq
  by_cases hk : host.resolve (listPath q) = host.resolve (listPath pkg)
  · rwa [← hk] at hl
  change (w2.files (host.resolve (listPath q))).isSome
  rw [htouch.files, hun.files _ hk]
  · exact hq
  rintro (he | ⟨path, hp, he⟩)
  · exact hk he
  · exact hpaths path hp (.inr ⟨q, .inl he.symm⟩)

theorem parse_eq {rest' : List UInt8} {es : List Entry}
    (hpre : getPreamble src = some ((deps, count), rest))
    (hes : getFiles count rest = some (es, rest')) : Archive.parse src = some ⟨deps, es⟩ := by
  simp [Archive.parse, Get.andThen, Get.give, hpre, hes]

theorem getPreamble_eq {src1 src2 src3 : List UInt8} {depCount : ℕ}
    (h1 : getHeader src = some (depCount, src1)) (h2 : getDeps depCount src1 = some (deps, src2))
    (h3 : getNum 4 src2 = some (count, src3)) : getPreamble src = some ((deps, count), src3) := by
  simp [getPreamble, Get.andThen, Get.give, h1, h2, h3]

/-- How far `unpackFozu` gets: not to the dependencies, not to the files, or to them. -/
inductive FozuRun (host : Host Key) (install : Option (Path → World Key → Bool × World Key))
    (fozuPath pkg : Path) (w : World Key) (r : ℤ × World Key) : Prop
  | unread (same : Same w r.2) (result : r.1 = -1)
  | read (f : File) (file : w.files (host.resolve fozuPath) = some f) (n : ℕ) (src : List UInt8)
      (w1 : World Key) (header : getHeader f.bytes = some (n, src)) (same : Same w w1)
      (rest : let d := unpackDeps host install pkg n [] src w1
        (Same d.2.2 r.2 ∧ r.1 = -1) ∨ ∃ deps count src' w2, d.1 = some deps ∧
          getNum 4 d.2.1 = some (count, src') ∧ Same d.2.2 w2 ∧
          r = unpackContents host pkg deps count src' w2)

theorem unpackFozu_run (host : Host Key) (install : Option (Path → World Key → Bool × World Key))
    (fozuPath pkg : Path) (w : World Key) :
    FozuRun host install fozuPath pkg w (unpackFozu host install fozuPath pkg w) := by
  have hopen := openFile_same host fozuPath w
  have hsome : ∀ src, (openFile host fozuPath w).1 = some src → _ := fun src => openFile_some
  unfold unpackFozu
  generalize openFile host fozuPath w = r at *
  rcases r with ⟨_ | src, w1⟩
  · exact .unread hopen rfl
  obtain ⟨f, hfile, rfl⟩ := hsome src rfl
  obtain ⟨hsame, hread⟩ := readHeader_reads host f.bytes w1
  dsimp only at hopen ⊢
  generalize readHeader host f.bytes w1 = r at *
  rcases r with ⟨_ | n, src, w2⟩
  · exact .unread (hopen.trans hsame) rfl
  refine .read f hfile n src w2 (hread n rfl) (hopen.trans hsame) ?_
  dsimp only
  rcases unpackDeps host install pkg n [] src w2 with ⟨_ | deps, src', w3⟩
  · exact .inl ⟨Same.refl w3, rfl⟩
  obtain ⟨hsame', hnum⟩ := readNum_reads host 4 src' w3
  dsimp only
  generalize readNum host 4 src' w3 = r at *
  rcases r with ⟨_ | count, src'', w4⟩
  · exact .inl ⟨hsame', rfl⟩
  · exact .inr ⟨deps, count, src'', w4, rfl, hnum count rfl, hsame', rfl⟩

theorem unpackFozu_pos (hh : host.Steady) (hin : ∀ f ∈ install, Installs host f) {fozuPath : Path}
    {f : File} (hfile : w.files (host.resolve fozuPath) = some f) (hok : ArchiveOk host f.bytes)
    (h : 0 < (unpackFozu host install fozuPath pkg w).1) :
    Unpacked host f.bytes (unpackFozu host install fozuPath pkg w).2 ∧
      Listed host (unpackFozu host install fozuPath pkg w).2 pkg ∧
      Keeps host w (unpackFozu host install fozuPath pkg w).2 ∧
      Restaged w (unpackFozu host install fozuPath pkg w).2 := by
  cases unpackFozu_run host install fozuPath pkg w with
  | unread same result => omega
  | read f' file n src w1 header same rest =>
    obtain rfl : f = f' := Option.some.inj (hfile.symm.trans file)
    dsimp only at rest
    rcases hdeps : unpackDeps host install pkg n [] src w1 with ⟨_ | deps, src2, w3⟩ <;>
      rw [hdeps] at rest <;>
      obtain ⟨-, hr⟩ | ⟨deps', count, src3, w4, heq, hnum, hsame, hr⟩ := rest
    · omega
    · cases heq
    · omega
    cases heq
    rw [hr] at h ⊢
    obtain ⟨new, hget, hds, hk, hst, hl⟩ := unpackDeps_some hin hdeps
    obtain rfl : deps = new := hds
    have hpre := getPreamble_eq header hget hnum
    obtain ⟨hpaths, hnd, hcount⟩ := hok _ _ _ hpre
    obtain ⟨hl', hk', hst', es, rest, hes, hfiles⟩ := unpackContents_pos hh hpaths hnd hcount h
    have hkeeps : Keeps host w3 (unpackContents host pkg deps count src3 w4).2 :=
      hsame.keeps.trans hk'
    refine ⟨⟨⟨deps, es⟩, parse_eq hpre hes, hfiles, fun dep hdep => hkeeps dep (hl dep hdep)⟩, hl',
      (same.keeps.trans hk).trans hkeeps, ?_⟩
    exact Restaged.trans (.inl same.staging) (hst.trans (.inl (hst'.trans hsame.staging)))

theorem httpDownload_touch (host : Host Key) (pkg : Path) (w : World Key) :
    Touch (· = host.resolve w.staging) w (httpDownload host pkg w).2.2 := by
  unfold httpDownload
  dsimp only
  split
  · exact (Same.tock w).touch
  · exact set_tock_touch w _ _

theorem httpDownload_pos (h : 0 < (httpDownload host pkg w).1) :
    ∃ f, (httpDownload host pkg w).2.2.files (host.resolve w.staging) = some f ∧
      (host.outcome w.tick).staged pkg = some f.bytes := by
  obtain ⟨bytes, hb⟩ := Option.isSome_iff_exists.mp ((host.outcome w.tick).staged_of_fetched pkg h)
  refine ⟨⟨bytes, 0o644⟩, ?_, hb⟩
  unfold httpDownload
  dsimp only
  rw [hb]
  exact set_tock_files ..

theorem fetchPackage_spec (host : Host Key) (pkg : Path) (w : World Key) :
    Touch (· = host.resolve (stagingPath pkg)) { w with staging := stagingPath pkg }
        (fetchPackage host pkg w).2 ∧
      ∀ n, (fetchPackage host pkg w).1 = some n →
        ∃ f k, (fetchPackage host pkg w).2.files (host.resolve (stagingPath pkg)) = some f ∧
          (host.outcome k).staged pkg = some f.bytes ∧ 0 < (host.outcome k).fetched pkg := by
  have hsame := indexLookupHash_same host pkg { ensureRahuDirs w with staging := stagingPath pkg }
  unfold fetchPackage
  dsimp only
  generalize indexLookupHash host pkg { ensureRahuDirs w with staging := stagingPath pkg } = r at *
  obtain ⟨expected, w1⟩ := r
  have hst : w1.staging = stagingPath pkg := hsame.staging
  have hlookup : Same { w with staging := stagingPath pkg } w1 :=
    ⟨hsame.files, hsame.staging, hsame.log⟩
  have htouch := httpDownload_touch host pkg w1
  have hpos : 0 < (httpDownload host pkg w1).1 → _ := httpDownload_pos
  have hn : (httpDownload host pkg w1).1 = (host.outcome w1.tick).fetched pkg := rfl
  rw [hst] at htouch hpos
  dsimp only
  generalize httpDownload host pkg w1 = r at *
  obtain ⟨m, digest, w2⟩ := r
  have hfetched := hlookup.touch.trans htouch
  dsimp only at hfetched hpos hn ⊢
  by_cases hm : m ≤ 0
  · rw [if_pos hm]
    exact ⟨hfetched, fun n h => by cases h⟩
  obtain ⟨f, hf, hb⟩ := hpos (by omega)
  have hfile : ∃ f k, w2.files (host.resolve (stagingPath pkg)) = some f ∧
      (host.outcome k).staged pkg = some f.bytes ∧ 0 < (host.outcome k).fetched pkg :=
    ⟨f, _, hf, hb, by omega⟩
  rw [if_neg hm]
  rcases expected with _ | hex
  · exact ⟨hfetched, fun _ _ => hfile⟩
  dsimp only
  split_ifs
  · exact ⟨hfetched, fun _ _ => hfile⟩
  have hun := unlink_touch host w2.staging w2
  rw [hfetched.staging] at hun ⊢
  exact ⟨hfetched.trans hun, fun n h => by cases h⟩

theorem fetchPackage_some (hh : host.Steady) {n : ℕ} (h : (fetchPackage host pkg w).1 = some n) :
    (fetchPackage host pkg w).2.staging = stagingPath pkg ∧
      Keeps host w (fetchPackage host pkg w).2 ∧
      ∃ f k, (fetchPackage host pkg w).2.files (host.resolve (stagingPath pkg)) = some f ∧
        (host.outcome k).staged pkg = some f.bytes := by
  obtain ⟨htouch, hfile⟩ := fetchPackage_spec host pkg w
  obtain ⟨f, k, hf, hb, -⟩ := hfile n h
  exact ⟨htouch.staging, htouch.keeps fun q hq => hh.apart pkg q hq.symm, f, k, hf, hb⟩

section
variable (hh : host.Steady)
  (harch : ∀ k pkg bytes, (host.outcome k).staged pkg = some bytes → ArchiveOk host bytes)
include hh harch

theorem installWith_true (hin : ∀ f ∈ install, Installs host f) (h : (installWith host install pkg w).1) :
    ∃ f, (fetchPackage host pkg w).2.files (host.resolve (stagingPath pkg)) = some f ∧
      Unpacked host f.bytes (installWith host install pkg w).2 ∧
      Listed host (installWith host install pkg w).2 pkg ∧
      Keeps host w (installWith host install pkg w).2 ∧ Staged (installWith host install pkg w).2 := by
  have hfetch : ∀ n, (fetchPackage host pkg w).1 = some n → _ := fun n hn => fetchPackage_some hh hn
  unfold installWith at h ⊢
  generalize fetchPackage host pkg w = r at *
  rcases r with ⟨_ | n, w1⟩
  · cases h
  obtain ⟨hst, hk, f, k, hfile, hstaged⟩ := hfetch n rfl
  have hok := harch k pkg f.bytes hstaged
  dsimp only at h hst hk hfile ⊢
  rw [hst] at h ⊢
  have hpos : 0 < (unpackFozu host install (stagingPath pkg) pkg w1).1 → _ :=
    unpackFozu_pos hh hin hfile hok
  generalize unpackFozu host install (stagingPath pkg) pkg w1 = r at *
  obtain ⟨installed, w2⟩ := r
  dsimp only at h hpos ⊢
  by_cases hi : installed ≤ 0
  · rw [if_pos hi] at h
    cases h
  rw [if_neg hi]
  obtain ⟨hun, hl, hk2, hre⟩ := hpos (by omega)
  obtain ⟨q, hq⟩ := hre.staged ⟨pkg, hst⟩
  -- the staging file and the history are records
  have ht3 := unlink_touch host w2.staging w2
  rw [hq] at ht3 ⊢
  have hk3 : Keeps host w2 (unlink host (stagingPath q) w2).2 :=
    ht3.keeps fun p hp => hh.apart q p hp.symm
  have hk4 := writeManifestEntry_keeps host pkg n (unlink host (stagingPath q) w2).2
  have ht4 := writeManifestEntry_touch host pkg n (unlink host (stagingPath q) w2).2
  refine ⟨f, hfile, ?_, hk4 _ (hk3 _ hl), ((hk.trans hk2).trans hk3).trans hk4, q, ?_⟩
  · exact (hun.touch hok ht3 (fun key hkey => .inr ⟨q, .inr (.inr hkey)⟩) hk3).touch hok ht4
      (fun key hkey => .inl hkey) hk4
  · dsimp only
    rw [ht4.staging, ht3.staging, hq]

theorem installPackage_installs (levels : ℕ) : Installs host (installPackage host levels) := by
  induction levels with
  | zero =>
    intro pkg w h
    obtain ⟨f, -, -, hrest⟩ := installWith_true hh harch (by simp) h
    exact hrest
  | succ levels ih =>
    intro pkg w h
    obtain ⟨f, -, -, hrest⟩ := installWith_true hh harch (by rintro f ⟨⟩; exact ih) h
    exact hrest

def contents (host : Host Key) (path : Path) (w : World Key) : List UInt8 :=
  match w.files (host.resolve path) with
  | none => []
  | some f => f.bytes

/-- The archive that `install_package` unpacks. -/
def stagedBytes (host : Host Key) (pkg : Path) (w : World Key) : List UInt8 :=
  contents host (stagingPath pkg) (fetchPackage host pkg w).2

theorem installPackage_true (levels : ℕ) (h : (installPackage host levels pkg w).1) :
    Unpacked host (stagedBytes host pkg w) (installPackage host levels pkg w).2 := by
  have hin : ∃ install : Option (Path → World Key → Bool × World Key),
      installPackage host levels = installWith host install ∧ ∀ f ∈ install, Installs host f := by
    cases levels with
    | zero => exact ⟨none, rfl, by simp⟩
    | succ levels =>
      refine ⟨some (installPackage host levels), rfl, ?_⟩
      rintro f ⟨⟩
      exact installPackage_installs hh harch levels
  obtain ⟨install, heq, hin⟩ := hin
  rw [heq] at h ⊢
  obtain ⟨f, hfile, hun, -⟩ := installWith_true hh harch hin h
  rwa [stagedBytes, contents, hfile]

theorem installLocal_true {arg : Path} (hok : ArchiveOk host (contents host arg w)) (h : (installLocal host arg w).1) :
    Unpacked host (contents host arg w) (installLocal host arg w).2 := by
  have hin : ∀ f ∈ some (installPackage host (maxLevels - 1)), Installs host f := by
    rintro f ⟨⟩
    exact installPackage_installs hh harch _
  rcases hf : w.files (host.resolve arg) with _ | f
  · have hopen : (openFile host arg (ensureRahuDirs w)).1 = none := by simp [openFile, ensureRahuDirs, hf]
    unfold installLocal unpackFozu at h
    generalize openFile host arg (ensureRahuDirs w) = r at *
    obtain ⟨c, w1⟩ := r
    cases hopen
    cases h
  rw [contents, hf] at hok ⊢
  have hpos : 0 < (unpackFozu host (some (installPackage host (maxLevels - 1))) arg (cleanName arg)
      (ensureRahuDirs w)).1 → _ := unpackFozu_pos hh hin hf hok
  unfold installLocal at h ⊢
  generalize unpackFozu host (some (installPackage host (maxLevels - 1))) arg (cleanName arg)
    (ensureRahuDirs w) = r at *
  obtain ⟨installed, w1⟩ := r
  dsimp only at h hpos ⊢
  by_cases hi : installed ≤ 0
  · rw [if_pos hi] at h
    cases h
  rw [if_neg hi]
  exact (hpos (by omega)).1.touch hok (writeManifestEntry_touch host _ 0 w1)
    (fun key hkey => .inl hkey) (writeManifestEntry_keeps host _ 0 w1)

end

end

/-! A system where every operation succeeds, with paths as names of files. -/

/-- The outcome of an operation that succeeds; a download gives the bytes. -/
def goodOutcome (bytes : List UInt8) : Outcome where
  opens := true
  reads := 65536
  creates := true
  unlinks := true
  writes := 65536
  chmods := true
  saves := some 65536
  fetched := const Path 1
  staged := const Path (some bytes)
  digest := const Path []
  staged_of_fetched := fun _ _ => rfl

def goodHost (bytes : List UInt8) : Host Path := ⟨id, const ℕ (goodOutcome bytes)⟩

theorem goodHost_noFaults (bytes : List UInt8) : (goodHost bytes).NoFaults :=
  ⟨fun _ => rfl, fun _ => Nat.zero_lt_succ _, fun _ => rfl, fun _ => rfl,
    fun _ => (by decide : 8192 ≤ 65536)⟩

theorem stagingPath_ne_listPath (a b : Path) : stagingPath a ≠ listPath b := by
  intro h
  have hlast := congrArg getLast? h
  have hfozu : (ascii ".fozu").getLast? = some 117 := by decide
  have hlist : (ascii ".list").getLast? = some 116 := by decide
  simp only [stagingPath, listPath, pathFor, getLast?_append, hfozu, hlist, Option.some_or] at hlast
  exact absurd hlast (by decide)

theorem goodHost_steady (bytes : List UInt8) : (goodHost bytes).Steady :=
  ⟨fun _ => rfl, fun _ => rfl, stagingPath_ne_listPath⟩

theorem take_of_isRecord {bytes : List UInt8} {key : Path} (h : (goodHost bytes).IsRecord key) :
    key.take 5 = ascii "/var/" := by
  have hdir : ∀ dir name suffix : Path, dir.take 5 = ascii "/var/" → 5 ≤ dir.length →
      (pathFor dir name suffix).take 5 = ascii "/var/" := by
    intro dir name suffix hd hl
    rw [pathFor, append_assoc, take_append_of_le_length hl, hd]
  rcases h with rfl | ⟨pkg, rfl | rfl | rfl⟩
  · exact (by decide : installedJson.take 5 = ascii "/var/")
  · exact hdir _ _ _ (by decide) (by decide)
  · exact hdir _ _ _ (by decide) (by decide)
  · exact hdir _ _ _ (by decide) (by decide)

def u32 (n : ℕ) : List UInt8 := (range 4).map (ByteLayout.leByte n)

def u64 (n : ℕ) : List UInt8 := (range 8).map (ByteLayout.leByte n)

/-- Everything before the files of an archive without dependencies. -/
def samplePreamble : List UInt8 :=
  ascii "FOZU" ++ u32 1 ++ u32 1 ++ ascii "p" ++ u32 1 ++ ascii "1" ++ u32 0 ++ u32 2

def sampleEntry (path data : String) : List UInt8 :=
  u32 (ascii path).length ++ ascii path ++ u32 0o755 ++ u64 (ascii data).length ++ ascii data

def sampleArchive : List UInt8 :=
  samplePreamble ++ (sampleEntry "/bin/p" "hello" ++ sampleEntry "/etc/p" "x")

def sampleTruncated : List UInt8 := sampleArchive.take 60

def sampleWorld (bytes : List UInt8) : World Path :=
  ⟨update (const _ none) (ascii "/p.fozu") (some ⟨bytes, 0o644⟩), [], 0, []⟩

theorem sampleArchive_ok : ArchiveOk (goodHost sampleArchive) sampleArchive := by
  intro deps count rest h
  have hpre : getPreamble sampleArchive =
      some (([], 2), sampleEntry "/bin/p" "hello" ++ sampleEntry "/etc/p" "x") := by decide
  rw [hpre] at h
  cases h
  have hpaths : headPaths 2 (sampleEntry "/bin/p" "hello" ++ sampleEntry "/etc/p" "x") =
      [ascii "/bin/p", ascii "/etc/p"] := by decide
  rw [hpaths]
  refine ⟨fun path hp hrec => ?_, by decide, .inr ⟨by decide +kernel, goodHost_noFaults _⟩⟩
  have htake := take_of_isRecord hrec
  simp only [mem_cons, not_mem_nil, or_false] at hp
  rcases hp with rfl | rfl
  · exact absurd htake (by decide)
  · exact absurd htake (by decide)

end Exploidus.Rahu
