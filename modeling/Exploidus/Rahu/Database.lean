import Exploidus.Rahu.Records

/-! The package database, and what an installation does to it. -/
namespace Exploidus.Rahu
open Lines List

/-- The installations of a package since it was last removed: the files, and the packages needed. -/
def installs (log : List Event) (pkg : Path) : List (List Path × List Path) :=
  log.foldl (fun acc e => match e with
    | .installed q files deps => if q = pkg then acc ++ [(files, deps)] else acc
    | .removed q => if q = pkg then [] else acc) []

def owned (log : List Event) (pkg : Path) : List Path := (installs log pkg).flatMap Prod.fst

def needs (log : List Event) (pkg : Path) : List Path := (installs log pkg).flatMap Prod.snd

section
variable (log : List Event) (q pkg : Path) (files deps : List Path)

@[simp]
theorem owned_installed : owned (log ++ [.installed q files deps]) pkg =
    owned log pkg ++ if q = pkg then files else [] := by
  simp only [owned, installs, foldl_append, foldl_cons, foldl_nil]
  split_ifs <;> simp

@[simp]
theorem needs_installed : needs (log ++ [.installed q files deps]) pkg =
    needs log pkg ++ if q = pkg then deps else [] := by
  simp only [needs, installs, foldl_append, foldl_cons, foldl_nil]
  split_ifs <;> simp

@[simp]
theorem owned_removed : owned (log ++ [.removed q]) pkg = if q = pkg then [] else owned log pkg := by
  simp only [owned, installs, foldl_append, foldl_cons, foldl_nil]
  split_ifs <;> simp

@[simp]
theorem needs_removed : needs (log ++ [.removed q]) pkg = if q = pkg then [] else needs log pkg := by
  simp only [needs, installs, foldl_append, foldl_cons, foldl_nil]
  split_ifs <;> simp

end

/-! What an archive names. -/

def depPaths : ℕ → List UInt8 → List Path
  | 0, _ => []
  | count + 1, src =>
    match getField 63 src with
    | none => []
    | some (name, src) => cstr name :: depPaths count src

def depNames (bytes : List UInt8) : List Path :=
  match getHeader bytes with
  | none => []
  | some (count, src) => depPaths count src

theorem cstr_bounds (bs : List UInt8) : 0 ∉ cstr bs ∧ (cstr bs).length ≤ bs.length := by
  refine ⟨fun h => ?_, ( takeWhile_prefix _).length_le⟩
  rw [cstr] at h
  simpa using mem_takeWhile_imp h

theorem getField_length {limit : ℕ} {src bs rest : List UInt8}
    (h : getField limit src = some (bs, rest)) : bs.length ≤ limit := by
  simp only [getField, Get.andThen, Option.bind_eq_some_iff] at h
  obtain ⟨⟨n, src'⟩, -, h⟩ := h
  dsimp only at h
  split_ifs at h with hn
  · cases h
  rw [(getExact_length h).1]
  omega

theorem getHead_path {src src' : List UInt8} {head : Path × UInt32 × ℕ}
    (h : getHead src = some (head, src')) : 0 ∉ head.1 ∧ head.1.length ≤ 200 := by
  simp only [getHead, Get.andThen, Get.give, Option.bind_eq_some_iff] at h
  obtain ⟨⟨name, src1⟩, hname, _, -, _, -, h⟩ := h
  cases h
  have hb := cstr_bounds name
  exact ⟨hb.1, hb.2.trans (getField_length hname)⟩

theorem headPaths_bounds {count : ℕ} {src : List UInt8} {path : Path}
    (h : path ∈ headPaths count src) : 0 ∉ path ∧ path.length ≤ 200 := by
  induction count generalizing src with
  | zero => cases h
  | succ count ih =>
    rw [headPaths] at h
    rcases hg : getHead src with _ | ⟨head, src'⟩ <;> rw [hg] at h
    · cases h
    rcases mem_cons.mp h with rfl | h
    · exact getHead_path hg
    rcases he : getExact head.2.2 src' with _ | ⟨data, src''⟩ <;> rw [he] at h
    · cases h
    · exact ih h

variable {Key : Type}

structure FilePath (host : Host Key) (path : Path) : Prop where
  line : IsLine 10 path
  plain : 0 ∉ path
  short : path.length ≤ 200
  other : ¬ host.IsRecord (host.resolve path)

structure Brings (host : Host Key) (files : List Path) (count : ℕ) (src : List UInt8) : Prop where
  some : headPaths count src ≠ []
  complete : (getFiles count src).isSome = true
  paths : ∀ path ∈ headPaths count src, IsLine 10 path ∧ ¬ host.IsRecord (host.resolve path)
  fits : (unlines 10 (headPaths count src)).length ≤ 16128
  same : ∀ path, path ∈ headPaths count src ↔ path ∈ files

/-- An archive for a package: its dependencies have names, and it brings the package's files unless
it cannot be read up to them. -/
structure Suits (host : Host Key) (names : Path → Prop) (catalog : Path → List Path) (pkg : Path)
    (bytes : List UInt8) : Prop where
  deps : ∀ dep ∈ depNames bytes, names dep
  files : ∀ deps count rest, getPreamble bytes = some ((deps, count), rest) →
    Brings host (catalog pkg) count rest

/-- Every download that succeeds is an archive for the package. -/
def Host.Serves (host : Host Key) (names : Path → Prop) (catalog : Path → List Path) : Prop :=
  ∀ k pkg bytes, names pkg → 0 < (host.outcome k).fetched pkg →
    (host.outcome k).staged pkg = some bytes → Suits host names catalog pkg bytes

def Record.Lasting (names : Path → Prop) : Record → Prop
  | .history => True
  | .dependents pkg => names pkg
  | _ => False

def Small (host : Host Key) (names : Path → Prop) (w : World Key) : Prop :=
  ∀ r : Record, r.Lasting names → (contents host r.path w).length ≤ 16128

def Recorded (host : Host Key) (pkg dep : Path) (w : World Key) : Prop :=
  pkg ∈ lines 10 (contents host (dependentsPath dep) w)

theorem isRecord_path (host : Host Key) (r : Record) : host.IsRecord (host.resolve r.path) := by
  cases r with
  | history => exact .inl rfl
  | manifest pkg => exact .inr ⟨pkg, .inl rfl⟩
  | dependents pkg => exact .inr ⟨pkg, .inr (.inl rfl)⟩
  | staging pkg => exact .inr ⟨pkg, .inr (.inr rfl)⟩

structure Db (host : Host Key) (names : Path → Prop) (catalog : Path → List Path) (w : World Key) :
    Prop where
  listed : ∀ a, names a → (Listed host w a ↔ owned w.log a ≠ [])
  manifest : ∀ a, names a → Listed host w a → ∃ ls, contents host (listPath a) w = unlines 10 ls ∧
    (∀ l ∈ ls, FilePath host l) ∧ ∀ p, p ∈ ls ↔ p ∈ catalog a
  owned : ∀ a, owned w.log a ≠ [] → ∀ p, p ∈ owned w.log a ↔ p ∈ catalog a
  dependents : ∀ d, names d → ∃ ls, contents host (dependentsPath d) w = unlines 10 ls ∧
    ∀ l ∈ ls, names l
  recorded : ∀ q d, names d → d ∈ needs w.log q → Recorded host q d w

def Grows (host : Host Key) (names : Path → Prop) (w w' : World Key) : Prop :=
  ∀ r : Record, r.Lasting names → (contents host r.path w).length ≤ (contents host r.path w').length

def Restages (names : Path → Prop) (w w' : World Key) : Prop :=
  w'.staging = w.staging ∨ ∃ pkg, names pkg ∧ w'.staging = stagingPath pkg

structure Moves (host : Host Key) (names : Path → Prop) (catalog : Path → List Path)
    (w w' : World Key) : Prop where
  grows : Grows host names w w'
  restages : Restages names w w'
  keeps : Small host names w' → Db host names catalog w → Db host names catalog w' ∧
    ∀ q d, names d → Recorded host q d w → Recorded host q d w'

/-- What is expected of the argument of `install`: a name, or an archive for one. -/
def Installable (host : Host Key) (names : Path → Prop) (catalog : Path → List Path) (arg : Path)
    (w : World Key) : Prop :=
  if isLocal arg = true ∧ (w.files (host.resolve arg)).isSome = true then
    names (cleanName arg) ∧ Suits host names catalog (cleanName arg) (contents host arg w)
  else names arg

section
variable {host : Host Key} {names : Path → Prop} {catalog : Path → List Path} {w w' w'' : World Key}

theorem Record.Lasting.named {r : Record} (h : r.Lasting names) :
    r.Named names ∧ ∀ pkg, r ≠ .staging pkg := by
  cases r with
  | history => exact ⟨trivial, nofun⟩
  | manifest pkg => cases h
  | dependents pkg => exact ⟨h, nofun⟩
  | staging pkg => cases h

theorem Grows.trans (h : Grows host names w w') (h' : Grows host names w' w'') :
    Grows host names w w'' := fun r hr => (h r hr).trans (h' r hr)

theorem Grows.small (h : Grows host names w w') (hs : Small host names w') : Small host names w :=
  fun r hr => (h r hr).trans (hs r hr)

theorem Restages.trans (h : Restages names w w') (h' : Restages names w' w'') :
    Restages names w w'' := by
  rcases h' with he | he
  · rwa [Restages, he]
  · exact .inr he

theorem Moves.trans_of {P : Prop} (h : Moves host names catalog w w')
    (hP : Small host names w' → Db host names catalog w → P) (hg : Grows host names w' w'')
    (hst : Restages names w' w'') (h' : P → Moves host names catalog w' w'') :
    Moves host names catalog w w'' where
  grows := h.grows.trans hg
  restages := h.restages.trans hst
  keeps hs hdb := by
    have hs' := hg.small hs
    obtain ⟨hdb', hrec⟩ := h.keeps hs' hdb
    obtain ⟨hdb'', hrec'⟩ := (h' (hP hs' hdb)).keeps hs hdb'
    exact ⟨hdb'', fun q d hd hq => hrec' q d hd (hrec q d hd hq)⟩

theorem Moves.trans (h : Moves host names catalog w w') (h' : Moves host names catalog w' w'') :
    Moves host names catalog w w'' :=
  h.trans_of (fun _ _ => trivial) h'.grows h'.restages fun _ => h'

theorem Db.of_manifests (h : Db host names catalog w) (hlog : w'.log = w.log)
    (hman : ∀ a, names a →
      w'.files (host.resolve (listPath a)) = w.files (host.resolve (listPath a)))
    (hdep : ∀ d, names d → ∃ ls, contents host (dependentsPath d) w' = unlines 10 ls ∧
      ∀ l ∈ ls, names l)
    (hrec : ∀ q d, names d → Recorded host q d w → Recorded host q d w') :
    Db host names catalog w' where
  listed a ha := by
    rw [Listed, hman a ha, hlog]
    exact h.listed a ha
  manifest a ha := by
    rw [Listed, contents_congr (hman a ha), hman a ha]
    exact h.manifest a ha
  owned := by
    rw [hlog]
    exact h.owned
  dependents := hdep
  recorded q d hd hq := by
    rw [hlog] at hq
    exact hrec q d hd (h.recorded q d hd hq)

theorem Db.congr (h : Db host names catalog w) (hlog : w'.log = w.log)
    (hfiles : ∀ r : Record, r.Named names → (∀ pkg, r ≠ .staging pkg) → r ≠ .history →
      w'.files (host.resolve r.path) = w.files (host.resolve r.path)) :
    Db host names catalog w' := by
  have hdep : ∀ d, names d →
      contents host (dependentsPath d) w' = contents host (dependentsPath d) w :=
    fun d hd => contents_congr (hfiles (.dependents d) hd nofun nofun)
  refine h.of_manifests hlog (fun a ha => hfiles (.manifest a) ha nofun nofun) (fun d hd => ?_)
    fun q d hd hq => ?_
  · rw [hdep d hd]
    exact h.dependents d hd
  · rwa [Recorded, hdep d hd]

theorem Moves.of_files (hlog : w'.log = w.log) (hst : Restages names w w')
    (hfiles : ∀ r : Record, r.Named names → (∀ pkg, r ≠ .staging pkg) →
      w'.files (host.resolve r.path) = w.files (host.resolve r.path)) :
    Moves host names catalog w w' where
  grows r hr := by rw [contents_congr (hfiles r hr.named.1 hr.named.2)]
  restages := hst
  keeps _ hdb := by
    refine ⟨hdb.congr hlog fun r hr hs _ => hfiles r hr hs, fun q d hd hq => ?_⟩
    have hdep : contents host (dependentsPath d) w' = contents host (dependentsPath d) w :=
      contents_congr (hfiles (.dependents d) hd nofun)
    rwa [Recorded, hdep]

theorem Same.moves (h : Same w w') : Moves host names catalog w w' :=
  .of_files h.log (.inl h.staging) fun _ _ _ => congrFun h.files _

variable (hn : host.Separates names) {pkg dep : Path}
include hn

theorem Touch.moves_staging (hpkg : names pkg)
    (h : Touch (· = host.resolve (stagingPath pkg)) w w') : Moves host names catalog w w' :=
  .of_files h.log (.inl h.staging) fun _ hr hs => h.files _ (hn.ne (s := .staging pkg) hr hpkg (hs pkg))

variable [DecidableEq Key]

theorem fetchPackage_moves (hpkg : names pkg) (w : World Key) :
    Moves host names catalog w (fetchPackage host pkg w).2 := by
  have h := (fetchPackage_spec host pkg w).1
  exact .of_files h.log (.inr ⟨pkg, hpkg, h.staging⟩)
    fun _ hr hs => h.files _ (hn.ne (s := .staging pkg) hr hpkg (hs pkg))

theorem writeManifestEntry_moves (pkg : Path) (size : ℕ) (w : World Key) :
    Moves host names catalog w (writeManifestEntry host pkg size w) := by
  have h := writeManifestEntry_touch host pkg size w
  have hfiles : ∀ r : Record, r.Named names → r ≠ .history →
      (writeManifestEntry host pkg size w).files (host.resolve r.path) =
        w.files (host.resolve r.path) :=
    fun r hr hne => h.files _ (hn.ne (s := .history) hr trivial hne)
  refine ⟨fun r _ => writeManifestEntry_grows host pkg r.path size w, .inl h.staging, fun _ hdb =>
    ⟨hdb.congr h.log fun r hr _ hne => hfiles r hr hne, fun q d hd hq => ?_⟩⟩
  have hdep : contents host (dependentsPath d) (writeManifestEntry host pkg size w) =
      contents host (dependentsPath d) w := contents_congr (hfiles (.dependents d) hd nofun)
  rwa [Recorded, hdep]

variable (hf : host.Flawless)
include hf

theorem recordDependent_spec (hpkg : names pkg) (hdep : names dep)
    (hs : Small host names (recordDependent host dep pkg w)) (hdb : Db host names catalog w) :
    ∃ ls, (∀ l ∈ ls, names l) ∧ contents host (dependentsPath dep) w = unlines 10 ls ∧
      contents host (dependentsPath dep) (recordDependent host dep pkg w) =
        unlines 10 (ls ++ [pkg]) := by
  obtain ⟨ls, hls, hnames⟩ := hdb.dependents dep hdep
  have hsmall : (contents host (dependentsPath dep) w).length ≤ 16128 :=
    (appendLine_grows host (dependentsPath dep) (dependentsPath dep) pkg w).trans
      (hs (.dependents dep) hdep)
  refine ⟨ls, hnames, hls, ?_⟩
  rw [recordDependent, appendLine_contents hf hsmall ((hn.short pkg hpkg).trans (by norm_num)), hls,
    unlines_append]
  simp [unlines]

theorem recordDependent_recorded (hpkg : names pkg) (hdep : names dep)
    (hs : Small host names (recordDependent host dep pkg w)) (hdb : Db host names catalog w) :
    Recorded host pkg dep (recordDependent host dep pkg w) := by
  obtain ⟨ls, hnames, -, hnew⟩ := recordDependent_spec hn hf hpkg hdep hs hdb
  have hlines : ∀ l ∈ ls ++ [pkg], IsLine 10 l := by
    intro l hl
    rcases mem_append.mp hl with hl | hl
    · exact hn.line l (hnames l hl)
    rw [mem_singleton.mp hl]
    exact hn.line pkg hpkg
  rw [Recorded, hnew, lines_unlines hlines]
  simp

theorem recordDependent_moves (hpkg : names pkg) (hdep : names dep) (w : World Key) :
    Moves host names catalog w (recordDependent host dep pkg w) := by
  have ht := appendLine_touch host (dependentsPath dep) pkg w
  have hfiles : ∀ r : Record, r.Named names → r ≠ .dependents dep →
      (recordDependent host dep pkg w).files (host.resolve r.path) = w.files (host.resolve r.path) :=
    fun r hr hne => ht.files _ (hn.ne (s := .dependents dep) hr hdep hne)
  refine ⟨fun r _ => appendLine_grows host _ r.path pkg w, .inl ht.staging, fun hs hdb => ?_⟩
  obtain ⟨ls, hnames, hold, hnew⟩ := recordDependent_spec hn hf hpkg hdep hs hdb
  have hlog : (recordDependent host dep pkg w).log = w.log := ht.log
  generalize recordDependent host dep pkg w = w' at *
  have hdeps : ∀ q d, names d → Recorded host q d w → Recorded host q d w' := by
    intro q d hd hq
    by_cases he : d = dep
    · subst he
      have hlines : ∀ l ∈ ls, IsLine 10 l := fun l hl => hn.line l (hnames l hl)
      rw [Recorded, hold, lines_unlines hlines] at hq
      rw [Recorded, hnew, unlines_append, lines_unlines_append hlines]
      exact mem_append_left _ hq
    · have hsame : contents host (dependentsPath d) w' = contents host (dependentsPath d) w :=
        contents_congr (hfiles (.dependents d) hd (by simpa using he))
      rwa [Recorded, hsame]
  refine ⟨hdb.of_manifests hlog (fun a ha => hfiles (.manifest a) ha nofun) (fun d hd => ?_) hdeps, hdeps⟩
  by_cases he : d = dep
  · subst he
    refine ⟨ls ++ [pkg], hnew, fun l hl => ?_⟩
    rcases mem_append.mp hl with hl | hl
    · exact hnames l hl
    · rwa [mem_singleton.mp hl]
  · have hsame : contents host (dependentsPath d) w' = contents host (dependentsPath d) w :=
      contents_congr (hfiles (.dependents d) hd (by simpa using he))
    rw [hsame]
    exact hdb.dependents d hd

variable {count : ℕ} {install : Option (Path → World Key → Bool × World Key)} {src : List UInt8}

omit hn hf [DecidableEq Key] in
theorem Tried.moves
    (hin : ∀ f ∈ install, ∀ dep w, names dep → Moves host names catalog w (f dep w).2)
    (hdep : names dep) {ok : Bool} (h : Tried host install dep ok w w') :
    Moves host names catalog w w' := by
  rcases h with ⟨h, -⟩ | ⟨f, hf, w0, hs, heq⟩
  · exact h.moves
  · have hmoves : Moves host names catalog w0 _ := hin f hf dep w0 hdep
    rw [heq] at hmoves
    exact hs.moves.trans hmoves

theorem unpackDeps_moves
    (hin : ∀ f ∈ install, ∀ dep w, names dep → Moves host names catalog w (f dep w).2)
    (hpkg : names pkg) (deps : List Path) (hnames : ∀ d ∈ depPaths count src, names d)
    (w : World Key) :
    Moves host names catalog w (unpackDeps host install pkg count deps src w).2.2 ∧
      ∀ ds, (unpackDeps host install pkg count deps src w).1 = some ds →
        Small host names (unpackDeps host install pkg count deps src w).2.2 →
        Db host names catalog w → (∀ d ∈ deps, names d ∧ Recorded host pkg d w) →
        ∀ d ∈ ds, names d ∧
          Recorded host pkg d (unpackDeps host install pkg count deps src w).2.2 := by
  induction count generalizing deps src w with
  | zero =>
    refine ⟨(Same.refl w).moves, fun ds hds _ _ hdeps => ?_⟩
    cases hds
    exact hdeps
  | succ count ih =>
    have hstep := unpackDeps_step host install pkg count deps src w
    generalize unpackDeps host install pkg (count + 1) deps src w = r at *
    cases hstep with
    | noName result same => exact ⟨same.moves, fun ds hds => by rw [result] at hds; cases hds⟩
    | failed name src' w1 get tried result world =>
      have hdep : names (cstr name) := hnames _ (by rw [depPaths, get]; exact mem_cons_self ..)
      rw [world]
      exact ⟨tried.moves hin hdep, fun ds hds => by rw [result] at hds; cases hds⟩
    | next name src' w1 get tried rest =>
      rw [depPaths, get] at hnames
      have hdep : names (cstr name) := hnames _ (mem_cons_self ..)
      have h1 := (tried.moves hin hdep).trans (recordDependent_moves hn hf hpkg hdep w1)
      obtain ⟨h2, hrec2⟩ := ih (deps ++ [cstr name])
        (fun d hd => hnames d (mem_cons_of_mem _ hd)) (recordDependent host (cstr name) pkg w1)
      rw [← rest] at h2 hrec2
      refine ⟨h1.trans h2, fun ds hds hs hdb hdeps => ?_⟩
      have hs1 := h2.grows.small hs
      obtain ⟨hdb1, hkept⟩ := h1.keeps hs1 hdb
      refine hrec2 ds hds hs hdb1 fun d hd => ?_
      rcases mem_append.mp hd with hd | hd
      · exact ⟨(hdeps d hd).1, hkept _ d (hdeps d hd).1 (hdeps d hd).2⟩
      rw [mem_singleton.mp hd]
      -- the file of this dependency had its lines before the new one
      have hmoves : Moves host names catalog w1 _ := recordDependent_moves hn hf hpkg hdep w1
      have hdb0 := ((tried.moves hin hdep).keeps (hmoves.grows.small hs1) hdb).1
      exact ⟨hdep, recordDependent_recorded hn hf hpkg hdep hs1 hdb0⟩

omit hn in
theorem unpackFiles_lines {manifest : Path} {done : List Path} {w : World Key}
    (hpaths : ∀ path ∈ headPaths count src, host.resolve path ≠ host.resolve manifest)
    (hfits : (unlines 10 (done ++ headPaths count src)).length ≤ 16128)
    (hw : contents host manifest w = unlines 10 done) :
    contents host manifest (unpackFiles host manifest count done src w).2.2 =
      unlines 10 (unpackFiles host manifest count done src w).1 := by
  induction count generalizing done src w with
  | zero => exact hw
  | succ count ih =>
    have hstep := unpackFiles_step host manifest count done src w
    generalize unpackFiles host manifest (count + 1) done src w = r at *
    cases hstep with
    | noHead same stopped => rw [stopped.1, ← hw, contents_congr (congrFun same.files _)]
    | noFile head src' get touch stopped =>
      rw [stopped.1, ← hw, touch.contents (hpaths head.1 (mem_headPaths get)).symm]
    | next head src' data src'' w1 get getData touch file rest =>
      rw [headPaths_succ count get getData] at hpaths hfits
      have hold : contents host manifest w1 = unlines 10 done := by
        rw [touch.contents (hpaths head.1 (mem_cons_self ..)).symm, hw]
      have hlen : (contents host manifest w1).length ≤ 16128 := by
        rw [unlines_append, length_append] at hfits
        rw [hold]
        omega
      have hnew : contents host manifest (appendLine host manifest head.1 w1) =
          unlines 10 (done ++ [head.1]) := by
        rw [appendLine_contents hf hlen ((getHead_path get).2.trans (by norm_num)), hold,
          unlines_append]
        simp [unlines]
      rw [rest]
      exact ih (fun path hp => hpaths path (mem_cons_of_mem _ hp)) (by simpa using hfits) hnew

omit hn in
theorem unpackContents_spec (pkg : Path) (deps : List Path) {files : List Path}
    (hb : Brings host files count src) (w : World Key) :
    ∃ w1, (unpackContents host pkg deps count src w).2 =
        w1.note (.installed pkg (headPaths count src) deps) ∧
      Touch (Reach host (listPath pkg) count src) w w1 ∧
      contents host (listPath pkg) w1 = unlines 10 (headPaths count src) := by
  have hun := unlink_touch host (listPath pkg) w
  have hgone := unlink_none hf (listPath pkg) w
  unfold unpackContents
  generalize (unlink host (listPath pkg) w).2 = w0 at *
  have hrun := unpackFiles_run host (listPath pkg) count [] src w0
  have hlines : contents host (listPath pkg)
      (unpackFiles host (listPath pkg) count [] src w0).2.2 = _ := unpackFiles_lines hf
    (fun path hp he => (hb.paths path hp).2 (.inr ⟨pkg, .inl he⟩)) hb.fits
    (by rw [contents, hgone]; rfl)
  have hall : (unpackFiles host (listPath pkg) count [] src w0).2.1 :=
    unpackFiles_ok hf.toNoFaults hb.complete w0
  obtain ⟨es, rest, hes, hdone, -⟩ := hrun.complete hall
  generalize unpackFiles host (listPath pkg) count [] src w0 = r at *
  obtain ⟨done, complete, w1⟩ := r
  rw [nil_append, ← headPaths_eq hes] at hdone
  dsimp only at hdone hlines ⊢
  subst hdone
  refine ⟨w1, by rw [if_neg hb.some], ?_, hlines⟩
  exact (hun.mono fun key hkey => .inl hkey).trans hrun.touch

theorem unpackContents_moves (deps : List Path) (hpkg : names pkg)
    (hb : Brings host (catalog pkg) count src) (w : World Key) :
    Grows host names w (unpackContents host pkg deps count src w).2 ∧
      Restages names w (unpackContents host pkg deps count src w).2 ∧
      ((∀ d ∈ deps, Recorded host pkg d w) →
        Moves host names catalog w (unpackContents host pkg deps count src w).2) := by
  obtain ⟨w1, heq, htouch, hlines⟩ := unpackContents_spec hf pkg deps hb w
  rw [heq]
  have hfiles : ∀ r : Record, r.Named names → r ≠ .manifest pkg →
      w1.files (host.resolve r.path) = w.files (host.resolve r.path) := by
    intro r hr hne
    apply htouch.files
    rintro (he | ⟨path, hp, he⟩)
    · exact hn.ne (s := .manifest pkg) hr hpkg hne he
    · exact (hb.paths path hp).2 (he ▸ isRecord_path host r)
  have hman : ∀ a, names a → a ≠ pkg →
      w1.files (host.resolve (listPath a)) = w.files (host.resolve (listPath a)) :=
    fun a ha hne => hfiles (.manifest a) ha (by simpa using hne)
  have hdep : ∀ d, names d →
      contents host (dependentsPath d) w1 = contents host (dependentsPath d) w :=
    fun d hd => contents_congr (hfiles (.dependents d) hd nofun)
  have hgrows : Grows host names w (w1.note (.installed pkg (headPaths count src) deps)) := by
    intro r hr
    have hne : r ≠ .manifest pkg := by
      rintro rfl
      cases hr
    exact (congrArg length (contents_congr (hfiles r hr.named.1 hne))).ge
  have hlog : (w1.note (.installed pkg (headPaths count src) deps)).log =
      w.log ++ [.installed pkg (headPaths count src) deps] := by
    rw [World.note, htouch.log]
  have hlisted : Listed host w1 pkg := by
    rcases hfile : w1.files (host.resolve (listPath pkg)) with _ | f
    · rw [contents, hfile] at hlines
      exact absurd (eq_nil_of_unlines_eq_nil hlines.symm) hb.some
    · rw [Listed, hfile]
      rfl
  refine ⟨hgrows, .inl htouch.staging, fun hrec => ⟨hgrows, .inl htouch.staging, fun _ hdb => ?_⟩⟩
  have hkept : ∀ q d, names d → Recorded host q d w →
      Recorded host q d (w1.note (.installed pkg (headPaths count src) deps)) := by
    intro q d hd hq
    change q ∈ lines 10 (contents host (dependentsPath d) w1)
    rwa [hdep d hd]
  refine ⟨?_, hkept⟩
  constructor
  case listed =>
    intro a ha
    rw [hlog, owned_installed]
    by_cases he : a = pkg
    · subst he
      exact iff_of_true hlisted (by simp [hb.some])
    rw [if_neg (Ne.symm he), append_nil, ← hdb.listed a ha]
    change (w1.files (host.resolve (listPath a))).isSome ↔ _
    rw [hman a ha he]
    rfl
  case manifest =>
    intro a ha hl
    by_cases he : a = pkg
    · subst he
      refine ⟨headPaths count src, hlines, fun l hl => ?_, hb.same⟩
      exact ⟨(hb.paths l hl).1, (headPaths_bounds hl).1, (headPaths_bounds hl).2, (hb.paths l hl).2⟩
    change (w1.files (host.resolve (listPath a))).isSome = true at hl
    change ∃ ls, contents host (listPath a) w1 = _ ∧ _
    rw [hman a ha he] at hl
    rw [contents_congr (hman a ha he)]
    exact hdb.manifest a ha hl
  case owned =>
    intro a
    rw [hlog, owned_installed]
    by_cases he : a = pkg
    · subst he
      intro _ p
      rw [if_pos rfl, mem_append, hb.same]
      refine ⟨?_, .inr⟩
      rintro (hp | hp)
      · exact (hdb.owned a (ne_nil_of_mem hp) p).mp hp
      · exact hp
    · rw [if_neg (Ne.symm he), append_nil]
      exact hdb.owned a
  case dependents =>
    intro d hd
    change ∃ ls, contents host (dependentsPath d) w1 = _ ∧ _
    rw [hdep d hd]
    exact hdb.dependents d hd
  case recorded =>
    intro q d hd hq
    rw [hlog, needs_installed, mem_append] at hq
    apply hkept q d hd
    rcases hq with hq | hq
    · exact hdb.recorded q d hd hq
    split_ifs at hq with he
    · exact he ▸ hrec d hq
    · cases hq

theorem unpackFozu_moves
    (hin : ∀ f ∈ install, ∀ dep w, names dep → Moves host names catalog w (f dep w).2)
    (hpkg : names pkg) {fozuPath : Path}
    (hfile : ∀ f, w.files (host.resolve fozuPath) = some f → Suits host names catalog pkg f.bytes) :
    Moves host names catalog w (unpackFozu host install fozuPath pkg w).2 := by
  cases unpackFozu_run host install fozuPath pkg w with
  | unread same result => exact same.moves
  | read f file n src w1 header same rest =>
    have hsuits := hfile f file
    have hnames : ∀ d ∈ depPaths n src, names d := by
      intro d hd
      apply hsuits.deps
      rwa [depNames, header]
    have hread : Moves host names catalog w w1 := same.moves
    obtain ⟨hmoves, hrec⟩ := unpackDeps_moves hn hf hin hpkg [] hnames w1
    dsimp only at rest
    obtain ⟨hsame, -⟩ | ⟨deps, count, src', w2, hdeps, hnum, hsame, hr⟩ := rest
    · exact hread.trans (hmoves.trans hsame.moves)
    rw [hr]
    obtain ⟨new, hget, hds⟩ := unpackDeps_getDeps hdeps
    obtain rfl : deps = new := hds
    have hb := hsuits.files _ _ _ (getPreamble_eq header hget hnum)
    obtain ⟨hgrows, hst, hend⟩ := unpackContents_moves hn hf deps hpkg hb w2
    have hnum : Moves host names catalog _ w2 := hsame.moves
    refine (hread.trans (hmoves.trans hnum)).trans_of (fun hs hdb d hd => ?_) hgrows hst hend
    have hs3 := hnum.grows.small hs
    have hdb1 := (hread.keeps (hmoves.grows.small hs3) hdb).1
    have hd3 := (hrec deps hdeps hs3 hdb1 (by simp) d hd).2
    rwa [Recorded, contents_congr (congrFun hsame.files _)]

section
variable (hreg : host.Serves names catalog)
include hreg

theorem installWith_moves
    (hin : ∀ f ∈ install, ∀ dep w, names dep → Moves host names catalog w (f dep w).2)
    (hpkg : names pkg) (w : World Key) :
    Moves host names catalog w (installWith host install pkg w).2 := by
  have hfetch : Moves host names catalog w _ := fetchPackage_moves hn hpkg w
  obtain ⟨htouch, hfile⟩ := fetchPackage_spec host pkg w
  have hst := htouch.staging
  unfold installWith
  generalize fetchPackage host pkg w = r at *
  rcases r with ⟨_ | n, w1⟩
  · exact hfetch
  obtain ⟨f, k, hf1, hstaged, hpos⟩ := hfile n rfl
  dsimp only at hfetch hst hf1 ⊢
  rw [hst]
  have hsuits : ∀ f', w1.files (host.resolve (stagingPath pkg)) = some f' →
      Suits host names catalog pkg f'.bytes := by
    intro f' hf'
    rw [hf1] at hf'
    cases hf'
    exact hreg k pkg f.bytes hpkg hpos hstaged
  have hunpack : Moves host names catalog w1 _ := unpackFozu_moves hn hf hin hpkg hsuits
  generalize unpackFozu host install (stagingPath pkg) pkg w1 = r at *
  obtain ⟨installed, w2⟩ := r
  dsimp only at hunpack ⊢
  -- the static path is that of the package or of a dependency
  obtain ⟨q, hq, hst2⟩ : ∃ q, names q ∧ w2.staging = stagingPath q := by
    rcases hunpack.restages with he | he
    · exact ⟨pkg, hpkg, he.trans hst⟩
    · exact he
  rw [hst2]
  have hun : Moves host names catalog w2 _ :=
    (unlink_touch host (stagingPath q) w2).moves_staging hn hq
  have hall := hfetch.trans (hunpack.trans hun)
  split_ifs
  · exact hall
  · exact hall.trans (writeManifestEntry_moves hn pkg n _)

theorem installPackage_moves
 (levels : ℕ) (hpkg : names pkg) (w : World Key) :
    Moves host names catalog w (installPackage host levels pkg w).2 := by
  induction levels generalizing pkg w with
  | zero => exact installWith_moves hn hf hreg (by simp) hpkg w
  | succ levels ih =>
    refine installWith_moves hn hf hreg ?_ hpkg w
    rintro f ⟨⟩ dep w hdep
    exact ih hdep w

theorem installLocal_moves {arg : Path} (hpkg : names (cleanName arg))
    (hfile : ∀ f, w.files (host.resolve arg) = some f →
      Suits host names catalog (cleanName arg) f.bytes) :
    Moves host names catalog w (installLocal host arg w).2 := by
  have hdirs : Moves host names catalog w (ensureRahuDirs w) := Same.moves ⟨rfl, rfl, rfl⟩
  have hin : ∀ f ∈ some (installPackage host (maxLevels - 1)), ∀ dep w, names dep →
      Moves host names catalog w (f dep w).2 := by
    rintro f ⟨⟩ dep w hdep
    exact installPackage_moves hn hf hreg _ hdep w
  have hunpack : Moves host names catalog (ensureRahuDirs w) _ :=
    unpackFozu_moves hn hf hin hpkg hfile
  unfold installLocal
  generalize unpackFozu host (some (installPackage host (maxLevels - 1))) arg (cleanName arg)
    (ensureRahuDirs w) = r at *
  dsimp only
  split_ifs
  · exact hdirs.trans hunpack
  · exact hdirs.trans (hunpack.trans (writeManifestEntry_moves hn _ 0 _))

/-- `cmd_install` of a name or of a local archive. -/
theorem cmdInstall_moves {arg : Path} (harg : Installable host names catalog arg w) :
    Moves host names catalog w (cmdInstall host arg w).2 := by
  have hopen := openFile_ok hf arg w
  have hsame := openFile_same host arg w
  unfold cmdInstall
  split_ifs with hempty hlocal
  · exact (Same.refl w).moves
  · generalize openFile host arg w = r at *
    obtain ⟨c, w1⟩ := r
    obtain rfl : c = (w.files (host.resolve arg)).map File.bytes := hopen
    rcases hfile : w.files (host.resolve arg) with _ | f
    · rw [Installable, hfile, if_neg (by simp)] at harg
      exact hsame.moves.trans (installPackage_moves hn hf hreg _ harg w1)
    rw [Installable, hfile, if_pos ⟨hlocal, rfl⟩, contents, hfile] at harg
    refine hsame.moves.trans (installLocal_moves hn hf hreg harg.1 fun f' hf' => ?_)
    rw [hsame.files, hfile] at hf'
    cases hf'
    exact harg.2
  · rw [Installable, if_neg fun h => hlocal h.1] at harg
    exact installPackage_moves hn hf hreg _ harg w

end

end

end Exploidus.Rahu
