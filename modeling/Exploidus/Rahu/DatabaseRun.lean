import Exploidus.Rahu.Database

/-! Removing a package, and whole runs of installations and removals. -/
namespace Exploidus.Rahu
open Lines
variable {Key : Type}

structure RemovesExactly (host : Host Key) (names : Path → Prop) (pkg : Path) (w w' : World Key) :
    Prop where
  gone : ∀ p ∈ lines 10 (contents host (listPath pkg) w), w'.files (host.resolve p) = none
  unlisted : ¬ Listed host w' pkg
  others : ∀ key, key ≠ host.resolve (listPath pkg) → key ≠ host.resolve installedJson →
    (∀ p ∈ lines 10 (contents host (listPath pkg) w), key ≠ host.resolve p) →
    w'.files key = w.files key
  manifests : ∀ b, names b → b ≠ pkg →
    w'.files (host.resolve (listPath b)) = w.files (host.resolve (listPath b))
  dependents : ∀ b, names b →
    w'.files (host.resolve (dependentsPath b)) = w.files (host.resolve (dependentsPath b))
  history : ∀ b, names b → b ≠ pkg → ∀ rest,
    b ++ 32 :: rest ∈ lines 10 (contents host installedJson w) →
    b ++ 32 :: rest ∈ lines 10 (contents host installedJson w')

section
variable {host : Host Key} {names : Path → Prop} {catalog : Path → List Path} {w w' : World Key}
  {pkg : Path} (hn : host.Separates names)
include hn

theorem Db.dependents_ok (hdb : Db host names catalog w) (hpkg : names pkg) :
    ∃ ls, contents host (dependentsPath pkg) w = unlines 10 ls ∧
      ∀ l ∈ ls, IsLine 10 l ∧ 0 ∉ l ∧ l.length ≤ 63 := by
  obtain ⟨ls, hls, hnames⟩ := hdb.dependents pkg hpkg
  exact ⟨ls, hls, fun l hl =>
    ⟨hn.line l (hnames l hl), (hn.plain l (hnames l hl)).1, hn.short l (hnames l hl)⟩⟩

variable [DecidableEq Key] (hf : host.Flawless)
include hf

section
variable (hdb : Db host names catalog w)
include hdb

theorem cmdRemove_needed (hpkg : names pkg) {q : Path} (hne : q ≠ pkg)
    (hq : Listed host w q) (hneeds : pkg ∈ needs w.log q) :
    (cmdRemove host pkg w).1 = false ∧ Same w (cmdRemove host pkg w).2 := by
  obtain ⟨ls, hls, hok⟩ := hdb.dependents_ok hn hpkg
  obtain ⟨hsame, hfound⟩ := findBlockers_spec hf hls hok
  have hmem := hdb.recorded q pkg hpkg hneeds
  rw [Recorded, hls, lines_unlines fun l hl => (hok l hl).1] at hmem
  cases cmdRemove_step (hn.line pkg hpkg).1 hsame with
  | refused result same => exact ⟨result, same⟩
  | removed f w1 w2 free file same files result =>
    rw [hfound q hmem hne hq] at free
    cases free

theorem cmdRemove_true (hpkg : names pkg) (h : (cmdRemove host pkg w).1) :
    ∃ ls w1, Listed host w pkg ∧ contents host (listPath pkg) w = unlines 10 ls ∧
      (∀ l ∈ ls, FilePath host l) ∧ Touch (fun key => ∃ l ∈ ls, key = host.resolve l) w w1 ∧
      (∀ l ∈ ls, w1.files (host.resolve l) = none) ∧
      (cmdRemove host pkg w).2 =
        (removeManifestEntry host pkg (unlink host (listPath pkg) w1).2).note (.removed pkg) := by
  obtain ⟨ds, hds, hok⟩ := hdb.dependents_ok hn hpkg
  have hsame := (findBlockers_spec hf hds hok).1
  cases cmdRemove_step (hn.line pkg hpkg).1 hsame with
  | refused result same =>
    rw [result] at h
    cases h
  | removed f w0 w1 free file same files result =>
    have hl : Listed host w pkg := by
      rw [Listed, file]
      rfl
    obtain ⟨ls, hls, hpaths, -⟩ := hdb.manifest pkg hpkg hl
    have hbytes : f.bytes = unlines 10 ls := by
      rw [← hls, contents, file]
    obtain ⟨htouch, hgone⟩ := unlinkLines_spec (w := w0) hf fun l hl' =>
      ⟨(hpaths l hl').line, (hpaths l hl').plain, (hpaths l hl').short⟩
    rw [← hbytes, ← files] at htouch hgone
    exact ⟨ls, w1, hl, hls, hpaths, same.touch.trans htouch, hgone, by rw [result]⟩

theorem cmdRemove_exact (hs : Small host names w) (hpkg : names pkg)
    (h : (cmdRemove host pkg w).1) :
    RemovesExactly host names pkg w (cmdRemove host pkg w).2 := by
  obtain ⟨ls, w1, -, hls, hpaths, htouch, hgone, heq⟩ := cmdRemove_true hn hf hdb hpkg h
  rw [heq]
  have hman := unlink_touch host (listPath pkg) w1
  have hnone := unlink_none hf (listPath pkg) w1
  generalize (unlink host (listPath pkg) w1).2 = w2 at *
  have hhist := removeManifestEntry_touch host pkg w2
  have hlines : lines 10 (contents host (listPath pkg) w) = ls := by
    rw [hls, lines_unlines fun l hl => (hpaths l hl).line]
  -- no record but the package's own is touched
  have hrecord : ∀ r : Record, r.Named names → r ≠ .manifest pkg →
      w2.files (host.resolve r.path) = w.files (host.resolve r.path) := by
    intro r hr hne
    rw [hman.files _ (hn.ne (s := .manifest pkg) hr hpkg hne), htouch.files]
    rintro ⟨l, hl, he⟩
    exact (hpaths l hl).other (he ▸ isRecord_path host r)
  have hjson : host.resolve (listPath pkg) ≠ host.resolve installedJson :=
    hn.ne (r := .manifest pkg) (s := .history) hpkg trivial nofun
  constructor
  case gone =>
    intro p hp
    rw [hlines] at hp
    have hother := (hpaths p hp).other
    change (removeManifestEntry host pkg w2).files (host.resolve p) = none
    rw [hhist.files _ fun he => hother (.inl he),
      hman.files _ fun he => hother (.inr ⟨pkg, .inl he⟩), hgone p hp]
  case unlisted =>
    change ¬ ((removeManifestEntry host pkg w2).files (host.resolve (listPath pkg))).isSome
    rw [hhist.files _ hjson, hnone]
    exact Bool.false_ne_true
  case others =>
    intro key h1 h2 h3
    rw [hlines] at h3
    change (removeManifestEntry host pkg w2).files key = w.files key
    rw [hhist.files _ h2, hman.files _ h1, htouch.files]
    rintro ⟨l, hl, he⟩
    exact h3 l hl he
  case manifests =>
    intro b hb hne
    refine (hhist.files _ ?_).trans (hrecord (.manifest b) hb (by simpa using hne))
    exact hn.ne (r := .manifest b) (s := .history) hb trivial nofun
  case dependents =>
    intro b hb
    refine (hhist.files _ ?_).trans (hrecord (.dependents b) hb nofun)
    exact hn.ne (r := .dependents b) (s := .history) hb trivial nofun
  case history =>
    intro b hb hne rest hmem
    have hold : contents host installedJson w2 = contents host installedJson w :=
      contents_congr (hrecord .history trivial nofun)
    have hsmall : (contents host installedJson w2).length ≤ 16128 := by
      rw [hold]
      exact hs .history trivial
    rw [← hold] at hmem
    exact removeManifestEntry_lines hf hsmall hmem
      (ownLine_other (hn.plain pkg hpkg).2 (hn.plain b hb).2 hne rest)

theorem cmdRemove_false (hpkg : names pkg)
    (h : (cmdRemove host pkg w).1 = false) : Same w (cmdRemove host pkg w).2 := by
  obtain ⟨ds, hds, hok⟩ := hdb.dependents_ok hn hpkg
  cases cmdRemove_step (hn.line pkg hpkg).1 (findBlockers_spec hf hds hok).1 with
  | refused result same => exact same
  | removed f w0 w1 free file same files result =>
    rw [result] at h
    cases h

theorem cmdRemove_log (hpkg : names pkg) (h : (cmdRemove host pkg w).1) :
    (cmdRemove host pkg w).2.log = w.log ++ [.removed pkg] := by
  obtain ⟨ls, w1, -, -, -, htouch, -, heq⟩ := cmdRemove_true hn hf hdb hpkg h
  rw [heq, World.note, (removeManifestEntry_touch host pkg _).log,
    (unlink_touch host (listPath pkg) w1).log, htouch.log]

theorem Db.remove (hs : Small host names w) (hpkg : names pkg) :
    Db host names catalog (cmdRemove host pkg w).2 := by
  cases h : (cmdRemove host pkg w).1 with
  | false =>
    have hsame := cmdRemove_false hn hf hdb hpkg h
    exact hdb.congr hsame.log fun r _ _ _ => congrFun hsame.files _
  | true =>
    have hex := cmdRemove_exact hn hf hdb hs hpkg h
    have hlog := cmdRemove_log hn hf hdb hpkg h
    generalize (cmdRemove host pkg w).2 = w' at *
    have hdep : ∀ d, names d →
        contents host (dependentsPath d) w' = contents host (dependentsPath d) w :=
      fun d hd => contents_congr (hex.dependents d hd)
    constructor
    case listed =>
      intro a ha
      rw [hlog, owned_removed]
      by_cases he : pkg = a
      · subst he
        simpa using hex.unlisted
      · rw [if_neg he, Listed, hex.manifests a ha (Ne.symm he)]
        exact hdb.listed a ha
    case manifest =>
      intro a ha hl
      by_cases he : pkg = a
      · subst he
        exact absurd hl hex.unlisted
      have hman := hex.manifests a ha (Ne.symm he)
      rw [Listed, hman] at hl
      rw [contents_congr hman]
      exact hdb.manifest a ha hl
    case owned =>
      intro a
      rw [hlog, owned_removed]
      by_cases he : pkg = a
      · rw [if_pos he]
        exact fun hne => absurd rfl hne
      · rw [if_neg he]
        exact hdb.owned a
    case dependents =>
      intro d hd
      rw [hdep d hd]
      exact hdb.dependents d hd
    case recorded =>
      intro q d hd hq
      rw [hlog, needs_removed] at hq
      rw [Recorded, hdep d hd]
      split_ifs at hq
      · cases hq
      · exact hdb.recorded q d hd hq

end

end

/-! Whole runs. -/

/-- A command of the package manager that changes packages. -/
inductive Command where
  | install (arg : Path)
  | remove (pkg : Path)
  deriving DecidableEq

section
variable [DecidableEq Key] (host : Host Key) (names : Path → Prop) (catalog : Path → List Path)

def exec : Command → World Key → World Key
  | .install arg, w => (cmdInstall host arg w).2
  | .remove pkg, w => (cmdRemove host pkg w).2

def execAll (cmds : List Command) (w : World Key) : World Key :=
  cmds.foldl (fun w c => exec host c w) w

/-- The command is for a package with a name, or for an archive of one. -/
def Allowed : Command → World Key → Prop
  | .install arg, w => Installable host names catalog arg w
  | .remove pkg, _ => names pkg

/-- Every command is allowed, and the records are small before it and in the end. -/
def AllowedAlong : List Command → World Key → Prop
  | [], w => Small host names w
  | c :: cmds, w =>
    Small host names w ∧ Allowed host names catalog c w ∧ AllowedAlong cmds (exec host c w)

/-- No package is installed yet, and none has dependents. -/
structure Fresh (w : World Key) : Prop where
  log : w.log = []
  manifests : ∀ a, names a → w.files (host.resolve (listPath a)) = none
  dependents : ∀ a, names a → w.files (host.resolve (dependentsPath a)) = none

/-- What is promised of the database: a package with files has a manifest of its own that lists
exactly these files; a package that another one needs is not removed; and a removal deletes exactly
what the manifest lists. -/
structure DatabaseOk (w : World Key) : Prop where
  listed : ∀ a, names a → (Listed host w a ↔ owned w.log a ≠ [])
  manifests : ∀ a, names a → Listed host w a →
    ∀ p, p ∈ lines 10 (contents host (listPath a) w) ↔ p ∈ owned w.log a
  distinct : ∀ a b, names a → names b → a ≠ b →
    host.resolve (listPath a) ≠ host.resolve (listPath b)
  needed : ∀ a q, names a → q ≠ a → Listed host w q → a ∈ needs w.log q →
    (cmdRemove host a w).1 = false
  refused : ∀ a, names a → (cmdRemove host a w).1 = false → Same w (cmdRemove host a w).2
  removal : ∀ a, names a → (cmdRemove host a w).1 = true →
    RemovesExactly host names a w (cmdRemove host a w).2

end

section
variable {host : Host Key} {names : Path → Prop} {catalog : Path → List Path} {w : World Key}

theorem Fresh.db (h : Fresh host names w) : Db host names catalog w := by
  have hdep : ∀ d, names d → contents host (dependentsPath d) w = [] := by
    intro d hd
    rw [contents, h.dependents d hd]
  constructor
  case listed =>
    intro a ha
    rw [Listed, h.manifests a ha, h.log]
    exact iff_of_false Bool.false_ne_true (fun hne => hne rfl)
  case manifest =>
    intro a ha hl
    rw [Listed, h.manifests a ha] at hl
    cases hl
  case owned =>
    intro a hne
    rw [h.log] at hne
    exact absurd rfl hne
  case dependents => exact fun d hd => ⟨[], hdep d hd, by simp⟩
  case recorded =>
    intro q d _ hq
    rw [h.log] at hq
    cases hq

variable [DecidableEq Key]

theorem Db.ok (hn : host.Separates names) (hf : host.Flawless) (hdb : Db host names catalog w)
    (hs : Small host names w) : DatabaseOk host names w where
  listed := hdb.listed
  manifests a ha hl p := by
    obtain ⟨ls, hls, hpaths, hcat⟩ := hdb.manifest a ha hl
    rw [hls, lines_unlines fun l hl => (hpaths l hl).line, hcat,
      hdb.owned a ((hdb.listed a ha).mp hl)]
  distinct a b ha hb hne := hn.ne (r := .manifest a) (s := .manifest b) ha hb (by simpa using hne)
  needed a q ha hne hq hneeds := (cmdRemove_needed hn hf hdb ha hne hq hneeds).1
  refused a ha h := cmdRemove_false hn hf hdb ha h
  removal a ha h := cmdRemove_exact hn hf hdb hs ha h

theorem Db.exec (hn : host.Separates names) (hf : host.Flawless) (hreg : host.Serves names catalog)
    (hdb : Db host names catalog w) {c : Command} (hs : Small host names w)
    (hs' : Small host names (exec host c w)) (hc : Allowed host names catalog c w) :
    Db host names catalog (Rahu.exec host c w) := by
  cases c with
  | install arg => exact ((cmdInstall_moves hn hf hreg hc).keeps hs' hdb).1
  | remove pkg => exact hdb.remove hn hf hs hc

theorem AllowedAlong.small {cmds : List Command} (h : AllowedAlong host names catalog cmds w) :
    Small host names w := by
  cases cmds with
  | nil => exact h
  | cons c cmds => exact h.1

theorem Db.execAll (hn : host.Separates names) (hf : host.Flawless)
    (hreg : host.Serves names catalog) (hdb : Db host names catalog w) {cmds : List Command}
    (hrun : AllowedAlong host names catalog cmds w) :
    Db host names catalog (Rahu.execAll host cmds w) ∧ Small host names (Rahu.execAll host cmds w) := by
  induction cmds generalizing w with
  | nil => exact ⟨hdb, hrun⟩
  | cons c cmds ih =>
    obtain ⟨hs, hc, hrest⟩ := hrun
    exact ih (hdb.exec hn hf hreg hs hrest.small hc) hrest

/-- In every run of installations and removals from an empty database, where no file operation
fails, the names differ within forty bytes, every archive that can be read brings the files of its
package, and no record outgrows what is read back of it: the database keeps what it promises. -/
theorem database_run (host : Host Key) (names : Path → Prop) (catalog : Path → List Path)
    (hn : host.Separates names) (hf : host.Flawless) (hreg : host.Serves names catalog)
    (w : World Key) (hw : Fresh host names w) (cmds : List Command)
    (hrun : AllowedAlong host names catalog cmds w) :
    DatabaseOk host names (execAll host cmds w) := by
  obtain ⟨hdb, hs⟩ := hw.db.execAll hn hf hreg hrun
  exact hdb.ok hn hf hs

end

/-! Two packages, of which one needs the other. -/

def sampleNeedy : List UInt8 :=
  ascii "FOZU" ++ u32 1 ++ u32 1 ++ ascii "q" ++ u32 1 ++ ascii "1" ++ u32 1 ++
    (u32 1 ++ ascii "p") ++ u32 1 ++ sampleEntry "/bin/q" "x"

def registryOutcome : Outcome :=
  { goodOutcome sampleArchive with
    staged := fun pkg => some (if pkg = ascii "q" then sampleNeedy else sampleArchive)
    staged_of_fetched := fun _ _ => rfl }

def registryHost : Host Path := ⟨id, Function.const ℕ registryOutcome⟩

def registryNames (pkg : Path) : Prop := pkg = ascii "p" ∨ pkg = ascii "q"

def registryCatalog (pkg : Path) : List Path :=
  if pkg = ascii "q" then [ascii "/bin/q"] else [ascii "/bin/p", ascii "/etc/p"]

def emptyWorld : World Path := ⟨Function.const _ none, [], 0, []⟩

/-- Install the one with its dependency; the dependency cannot be removed first. -/
def sampleCommands : List Command :=
  [.install (ascii "q"), .remove (ascii "p"), .remove (ascii "q"), .install (ascii "p")]

theorem registryNames_names : Names registryNames := by
  constructor
  case line =>
    rintro a (rfl | rfl)
    · exact (by decide : ascii "p" ≠ [] ∧ 10 ∉ ascii "p")
    · exact (by decide : ascii "q" ≠ [] ∧ 10 ∉ ascii "q")
  case plain =>
    rintro a (rfl | rfl) <;> decide
  case short =>
    rintro a (rfl | rfl) <;> decide
  case apart =>
    rintro a b (rfl | rfl) (rfl | rfl) h
    · rfl
    · exact absurd h (by decide)
    · exact absurd h (by decide)
    · rfl

theorem registryHost_separates : registryHost.Separates registryNames :=
  ⟨registryNames_names, fun _ _ _ _ h => h⟩

theorem registryHost_flawless : registryHost.Flawless where
  opens _ := rfl
  reads _ := (by decide : 0 < 65536)
  creates _ := rfl
  unlinks _ := rfl
  writes _ := (by decide : 8192 ≤ 65536)
  reads_all _ := (by decide : 16384 ≤ 65536)
  saves_all _ := ⟨65536, rfl, by decide⟩

theorem not_isRecord {path : Path} (h : path.take 5 ≠ ascii "/var/") : ¬ registryHost.IsRecord path := by
  intro hrec
  have hgood : (goodHost []).IsRecord path := hrec
  exact h (take_of_isRecord hgood)

theorem suits_of_parts {pkg : Path} {bytes rest : List UInt8} {deps paths : List Path} {count : ℕ}
    (hnames : ∀ dep ∈ depNames bytes, registryNames dep)
    (hpre : getPreamble bytes = some ((deps, count), rest)) (hpaths : headPaths count rest = paths)
    (hfiles : (getFiles count rest).isSome) (hcat : registryCatalog pkg = paths)
    (hne : paths ≠ []) (hlines : ∀ path ∈ paths, IsLine 10 path ∧ path.take 5 ≠ ascii "/var/")
    (hfits : (unlines 10 paths).length ≤ 16128) :
    Suits registryHost registryNames registryCatalog pkg bytes := by
  refine ⟨hnames, fun deps' count' rest' h => ?_⟩
  rw [hpre] at h
  cases h
  subst hpaths
  exact ⟨hne, hfiles, fun path hp => ⟨(hlines path hp).1, not_isRecord (hlines path hp).2⟩, hfits,
    fun path => by rw [hcat]⟩

theorem registryHost_serves : registryHost.Serves registryNames registryCatalog := by
  rintro k pkg bytes (rfl | rfl) - h
  · obtain rfl : sampleArchive = bytes := Option.some.inj h
    have hdeps : depNames sampleArchive = [] := by decide
    have hpre : getPreamble sampleArchive =
        some (([], 2), sampleEntry "/bin/p" "hello" ++ sampleEntry "/etc/p" "x") := by decide
    exact suits_of_parts (by simp [hdeps]) hpre rfl (by decide +kernel) (by decide)
      (by decide) (by unfold IsLine; decide) (by decide)
  · obtain rfl : sampleNeedy = bytes := Option.some.inj h
    have hdeps : depNames sampleNeedy = [ascii "p"] := by decide
    have hpre : getPreamble sampleNeedy =
        some (([ascii "p"], 1), sampleEntry "/bin/q" "x") := by decide
    exact suits_of_parts (by simp [hdeps, registryNames]) hpre rfl (by decide +kernel)
      (by decide) (by decide) (by unfold IsLine; decide) (by decide)

theorem small_of_lengths {w : World Path} (h1 : (contents registryHost installedJson w).length ≤ 16128)
    (h2 : (contents registryHost (dependentsPath (ascii "p")) w).length ≤ 16128)
    (h3 : (contents registryHost (dependentsPath (ascii "q")) w).length ≤ 16128) :
    Small registryHost registryNames w := by
  intro r hr
  cases r with
  | history => exact h1
  | manifest pkg => cases hr
  | dependents pkg =>
    rcases hr with rfl | rfl
    · exact h2
    · exact h3
  | staging pkg => cases hr

theorem installable_name {arg : Path} {w : World Path} (h : isLocal arg = false)
    (hn : registryNames arg) : Installable registryHost registryNames registryCatalog arg w := by
  rwa [Installable, if_neg fun hl => by rw [h] at hl; cases hl.1]

theorem sampleCommands_allowed :
    AllowedAlong registryHost registryNames registryCatalog sampleCommands emptyWorld := by
  refine ⟨small_of_lengths ?_ ?_ ?_, installable_name (by decide) (.inr rfl),
    small_of_lengths ?_ ?_ ?_, .inl rfl, small_of_lengths ?_ ?_ ?_, .inr rfl,
    small_of_lengths ?_ ?_ ?_, installable_name (by decide) (.inl rfl), small_of_lengths ?_ ?_ ?_⟩
  all_goals decide +kernel

/-- The database after a dependency was kept and released. -/
theorem sampleCommands_ok :
    DatabaseOk registryHost registryNames (execAll registryHost sampleCommands emptyWorld) :=
  database_run registryHost registryNames registryCatalog registryHost_separates
    registryHost_flawless registryHost_serves emptyWorld
    ⟨rfl, fun _ _ => rfl, fun _ _ => rfl⟩ sampleCommands sampleCommands_allowed

def longName (c : UInt8) : Path := List.replicate 40 97 ++ [c]

/-- Two packages whose names differ in the last byte: removing one removes the records of the
other, whose files are still installed. -/
theorem longName_clash :
    longName 120 ≠ longName 121 ∧ (longName 120).length ≤ 63 ∧ (longName 121).length ≤ 63 ∧
      listPath (longName 120) = listPath (longName 121) ∧
      owned (execAll (goodHost sampleArchive) [.install (longName 120), .install (longName 121),
        .remove (longName 120)] emptyWorld).log (longName 121) ≠ [] ∧
      ¬ Listed (goodHost sampleArchive) (execAll (goodHost sampleArchive)
        [.install (longName 120), .install (longName 121), .remove (longName 120)] emptyWorld)
        (longName 121) := by
  refine ⟨by decide, by decide, by decide, by decide, by decide, ?_⟩
  unfold Listed
  decide

end Exploidus.Rahu
