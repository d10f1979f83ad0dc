import Exploidus.Rahu.Archive

/-! What the steps of an installation do to the files. -/
namespace Exploidus.Rahu
open List Same
variable {Key : Type} {w w' w'' : World Key} {p q : Key → Prop}

structure Touch (p : Key → Prop) (w w' : World Key) : Prop where
  files : ∀ key, ¬ p key → w'.files key = w.files key
  staging : w'.staging = w.staging
  log : w'.log = w.log

theorem Same.touch (h : Same w w') : Touch p w w' :=
  ⟨fun key _ => congrFun h.files key, h.staging, h.log⟩

theorem Touch.trans (h : Touch p w w') (h' : Touch p w' w'') : Touch p w w'' :=
  ⟨fun key hk => (h'.files key hk).trans (h.files key hk), h'.staging.trans h.staging,
    h'.log.trans h.log⟩

theorem Touch.mono (h : Touch p w w') (hpq : ∀ key, p key → q key) : Touch q w w' :=
  ⟨fun key hk => h.files key fun hp => hk (hpq key hp), h.staging, h.log⟩

variable {host : Host Key} {path : Path} {mode : UInt32} {src : List UInt8}

theorem openFile_same (host : Host Key) (path : Path) (w : World Key) :
    Same w (openFile host path w).2 := tock w

theorem openFile_some {bytes : List UInt8} (h : (openFile host path w).1 = some bytes) :
    ∃ f, w.files (host.resolve path) = some f ∧ f.bytes = bytes := by
  unfold openFile at h
  rcases hf : w.files (host.resolve path) with _ | f <;> rw [hf] at h
  · cases h
  simp only [Option.bind_some] at h
  split_ifs at h
  cases h
  exact ⟨f, rfl, rfl⟩

theorem readFront_same (host : Host Key) (limit : ℕ) (path : Path) (w : World Key) :
    Same w (readFront host limit path w).2 := by
  have hs := openFile_same host path w
  unfold readFront
  generalize openFile host path w = r at *
  rcases r with ⟨_ | bytes, w'⟩
  · exact hs
  · exact hs.trans (tock w')

theorem isInstalled_same (host : Host Key) (pkg : Path) (w : World Key) :
    Same w (isInstalled host pkg w).2 := openFile_same host (listPath pkg) w

def Listed (host : Host Key) (w : World Key) (pkg : Path) : Prop :=
  (w.files (host.resolve (listPath pkg))).isSome = true

theorem isInstalled_true {pkg : Path} (h : (isInstalled host pkg w).1) :
    Listed host w pkg := by
  obtain ⟨bytes, hb⟩ := Option.isSome_iff_exists.mp h
  obtain ⟨f, hf, -⟩ := openFile_some hb
  rw [Listed, hf]
  rfl

variable [DecidableEq Key]

theorem set_tock_touch (w : World Key) (key : Key) (f : Option File) :
    Touch (· = key) w (w.set key f).tock :=
  ⟨fun _ hk => Function.update_of_ne hk _ _, rfl, rfl⟩

@[simp]
theorem set_tock_files (w : World Key) (key : Key) (f : Option File) :
    (w.set key f).tock.files key = f := Function.update_self _ _ _

theorem fsCreate_touch (host : Host Key) (path : Path) (w : World Key) :
    Touch (· = host.resolve path) w (fsCreate host path w).2 := by
  unfold fsCreate
  split_ifs
  · exact set_tock_touch w _ _
  · exact (tock w).touch

theorem fsCreate_true (h : (fsCreate host path w).1) :
    (fsCreate host path w).2.files (host.resolve path) = some ⟨[], 0o644⟩ := by
  unfold fsCreate at h ⊢
  split_ifs at h ⊢
  exact set_tock_files ..

section
variable (host : Host Key)

theorem unlink_touch (path : Path) (w : World Key) :
    Touch (· = host.resolve path) w (unlink host path w).2 := by
  unfold unlink
  split_ifs
  · exact set_tock_touch w _ _
  · exact (tock w).touch

theorem writeChunk_touch (path : Path) (chunk : List UInt8) (w : World Key) :
    Touch (· = host.resolve path) w (writeChunk host path chunk w).2 := by
  unfold writeChunk
  split
  · exact (tock w).touch
  · exact set_tock_touch w _ _

theorem chmod_touch (path : Path) (mode : UInt32) (w : World Key) :
    Touch (· = host.resolve path) w (chmod host path mode w) := by
  unfold chmod
  split
  · exact (tock w).touch
  split_ifs
  · exact set_tock_touch w _ _
  · exact (tock w).touch

theorem fileWrite_touch (path : Path) (data : List UInt8) (w : World Key) :
    Touch (· = host.resolve path) w (fileWrite host path data w) := by
  unfold fileWrite
  split
  · exact (tock w).touch
  · exact set_tock_touch w _ _

theorem appendLine_touch (path line : Path) (w : World Key) :
    Touch (· = host.resolve path) w (appendLine host path line w) :=
  (readFront_same host 16128 path w).touch.trans (fileWrite_touch host path _ _)

theorem writeManifestEntry_touch (pkg : Path) (size : ℕ) (w : World Key) :
    Touch (· = host.resolve installedJson) w (writeManifestEntry host pkg size w) :=
  (readFront_same host 16128 installedJson w).touch.trans (fileWrite_touch host installedJson _ _)

end

/-! One file. -/

theorem createFresh_touch (host : Host Key) (path : Path) (w : World Key) :
    Touch (· = host.resolve path) w (createFresh host path w).2 := by
  have h1 := fsCreate_touch host path w
  unfold createFresh
  generalize fsCreate host path w = r at *
  rcases r with ⟨_ | _, w'⟩
  · exact h1.trans ((unlink_touch host path w').trans (fsCreate_touch host path _))
  · exact h1

theorem createFresh_true (h : (createFresh host path w).1) :
    (createFresh host path w).2.files (host.resolve path) = some ⟨[], 0o644⟩ := by
  have h1 : (fsCreate host path w).1 → _ := fsCreate_true
  unfold createFresh at h ⊢
  generalize fsCreate host path w = r at *
  rcases r with ⟨_ | _, w'⟩
  · exact fsCreate_true h
  · exact h1 rfl

theorem copyChunks_succ (host : Host Key) (path : Path) {fuel remaining : ℕ} (hr : remaining ≠ 0)
    (src : List UInt8) (w : World Key) :
    copyChunks host path (fuel + 1) remaining src w =
      match readExact host (min remaining 8192) src w with
      | (none, src, w) => (false, src, w)
      | (some chunk, src, w) =>
        if (writeChunk host path chunk w).1 ≠ min remaining 8192 then
          (false, src, (writeChunk host path chunk w).2)
        else
          copyChunks host path fuel (remaining - min remaining 8192) src
            (writeChunk host path chunk w).2 := by
  rw [copyChunks]
  exact if_neg hr

theorem copyChunks_touch (host : Host Key) (path : Path) (fuel remaining : ℕ) (src : List UInt8)
    (w : World Key) : Touch (· = host.resolve path) w (copyChunks host path fuel remaining src w).2.2 := by
  induction fuel generalizing remaining src w with
  | zero => exact (refl w).touch
  | succ fuel ih =>
    by_cases hr : remaining = 0
    · rw [copyChunks, if_pos hr]
      exact (refl w).touch
    rw [copyChunks_succ host path hr]
    have hread := (readExact_reads host (min remaining 8192) src w).1
    generalize readExact host (min remaining 8192) src w = r at *
    rcases r with ⟨_ | chunk, src', w'⟩
    · exact hread.touch
    have hw := hread.touch.trans (writeChunk_touch host path chunk w')
    dsimp only
    split_ifs
    · exact hw
    · exact hw.trans (ih ..)

theorem writeChunk_full {chunk : List UInt8} {f : File}
    (hf : w.files (host.resolve path) = some f)
    (h : (writeChunk host path chunk w).1 = chunk.length) :
    (writeChunk host path chunk w).2.files (host.resolve path) =
      some { f with bytes := f.bytes ++ chunk } := by
  unfold writeChunk at h ⊢
  rw [hf] at h ⊢
  dsimp only at h ⊢
  rw [h, take_length, set_tock_files]

theorem getExact_length {n : ℕ} {bs rest : List UInt8} (h : getExact n src = some (bs, rest)) :
    bs.length = n ∧ src = bs ++ rest := by
  unfold getExact at h
  split_ifs at h with hn
  cases h
  exact ⟨by rw [length_take]; omega, (take_append_drop n src).symm⟩

theorem getExact_append {n : ℕ} (bs rest : List UInt8) (h : bs.length = n) :
    getExact n (bs ++ rest) = some (bs, rest) := by
  subst h
  rw [getExact, if_pos (by simp), take_left, drop_left]

theorem copyChunks_true {fuel remaining : ℕ} {f : File}
    (hf : w.files (host.resolve path) = some f)
    (h : (copyChunks host path fuel remaining src w).1) :
    ∃ data, getExact remaining src = some (data, (copyChunks host path fuel remaining src w).2.1) ∧
      (copyChunks host path fuel remaining src w).2.2.files (host.resolve path) =
        some { f with bytes := f.bytes ++ data } := by
  induction fuel generalizing remaining src w f with
  | zero =>
    obtain rfl : remaining = 0 := of_decide_eq_true h
    exact ⟨[], by simp [getExact, copyChunks], by simpa [copyChunks] using hf⟩
  | succ fuel ih =>
    by_cases hr : remaining = 0
    · subst hr
      exact ⟨[], by simp [getExact, copyChunks], by simpa [copyChunks] using hf⟩
    rw [copyChunks_succ host path hr] at h ⊢
    obtain ⟨hsame, hread⟩ := readExact_reads host (min remaining 8192) src w
    generalize readExact host (min remaining 8192) src w = r at *
    rcases r with ⟨_ | chunk, src', w'⟩
    · cases h
    obtain ⟨hlen, rfl⟩ := getExact_length (hread chunk rfl)
    dsimp only at h hsame ⊢
    split_ifs at h ⊢ with hn
    have hf' : w'.files (host.resolve path) = some f := by rw [hsame.files, hf]
    rw [not_not, ← hlen] at hn
    obtain ⟨data, hget, hfile⟩ := ih (writeChunk_full hf' hn) h
    obtain ⟨hdata, hrest⟩ := getExact_length hget
    refine ⟨chunk ++ data, ?_, by rw [hfile, append_assoc]⟩
    conv_lhs => rw [hrest, ← append_assoc]
    apply getExact_append
    rw [length_append]
    omega

theorem extractOneFile_touch (host : Host Key) (path : Path) (mode : UInt32) (size : ℕ)
    (src : List UInt8) (w : World Key) :
    Touch (· = host.resolve path) w (extractOneFile host path mode size src w).2.2 := by
  have h1 := createFresh_touch host path w
  unfold extractOneFile
  generalize createFresh host path w = r at *
  rcases r with ⟨_ | _, w'⟩
  · exact h1
  have h2 := h1.trans (copyChunks_touch host path (src.length + 1) size src w')
  dsimp only
  generalize copyChunks host path (src.length + 1) size src w' = r at *
  rcases r with ⟨_ | _, src', w''⟩
  · exact h2
  · exact h2.trans (chmod_touch host path mode w'')

theorem chmod_files {f : File} (hc : ∀ k, (host.outcome k).chmods)
    (hf : w.files (host.resolve path) = some f) :
    (chmod host path mode w).files (host.resolve path) = some { f with mode := mode } := by
  unfold chmod
  rw [hf]
  dsimp only
  rw [if_pos (hc _), set_tock_files]

theorem extractOneFile_true {size : ℕ}
    (h : (extractOneFile host path mode size src w).1) :
    ∃ data, getExact size src = some (data, (extractOneFile host path mode size src w).2.1) ∧
      ((∀ k, (host.outcome k).chmods) →
        (extractOneFile host path mode size src w).2.2.files (host.resolve path) =
          some ⟨data, mode⟩) := by
  have h1 : (createFresh host path w).1 → _ := createFresh_true
  unfold extractOneFile at h ⊢
  generalize createFresh host path w = r at *
  rcases r with ⟨_ | _, w'⟩
  · cases h
  dsimp only at h h1 ⊢
  have h2 : (copyChunks host path (src.length + 1) size src w').1 → _ :=
    copyChunks_true (h1 rfl)
  generalize copyChunks host path (src.length + 1) size src w' = r at *
  rcases r with ⟨_ | _, src', w''⟩
  · cases h
  obtain ⟨data, hget, hfile⟩ := h2 rfl
  exact ⟨data, hget, fun hc => chmod_files hc hfile⟩

/-! All files of an archive. -/

inductive FilesStep (host : Host Key) (manifest : Path) (count : ℕ) (done : List Path)
    (src : List UInt8) (w : World Key) (r : List Path × Bool × World Key) : Prop
  | noHead (same : Same w r.2.2) (stopped : r.1 = done ∧ r.2.1 = false)
  | noFile (head : Path × UInt32 × ℕ) (src' : List UInt8) (get : getHead src = some (head, src'))
      (touch : Touch (· = host.resolve head.1) w r.2.2) (stopped : r.1 = done ∧ r.2.1 = false)
  | next (head : Path × UInt32 × ℕ) (src' data src'' : List UInt8) (w1 : World Key)
      (get : getHead src = some (head, src')) (getData : getExact head.2.2 src' = some (data, src''))
      (touch : Touch (· = host.resolve head.1) w w1)
      (file : (∀ k, (host.outcome k).chmods = true) →
        w1.files (host.resolve head.1) = some ⟨data, head.2.1⟩)
      (rest : r = unpackFiles host manifest count (done ++ [head.1]) src''
        (appendLine host manifest head.1 w1))

theorem unpackFiles_step (host : Host Key) (manifest : Path) (count : ℕ) (done : List Path)
    (src : List UInt8) (w : World Key) :
    FilesStep host manifest count done src w (unpackFiles host manifest (count + 1) done src w) := by
  obtain ⟨hsame, hread⟩ := readHead_reads host src w
  rw [unpackFiles]
  generalize readHead host src w = r at *
  rcases r with ⟨_ | head, src', w'⟩
  · exact .noHead hsame ⟨rfl, rfl⟩
  have hget := hread head rfl
  dsimp only at hsame ⊢
  have ht := hsame.touch.trans (extractOneFile_touch host head.1 head.2.1 head.2.2 src' w')
  have hok : (extractOneFile host head.1 head.2.1 head.2.2 src' w').1 → _ :=
    extractOneFile_true
  generalize extractOneFile host head.1 head.2.1 head.2.2 src' w' = r at *
  rcases r with ⟨_ | _, src'', w''⟩
  · exact .noFile head src' hget ht ⟨rfl, rfl⟩
  obtain ⟨data, hdata, hfile⟩ := hok rfl
  exact .next head src' data src'' w'' hget hdata ht hfile rfl

theorem headPaths_succ (count : ℕ) {head : Path × UInt32 × ℕ} {src' data src'' : List UInt8}
    (get : getHead src = some (head, src')) (getData : getExact head.2.2 src' = some (data, src'')) :
    headPaths (count + 1) src = head.1 :: headPaths count src'' := by
  rw [headPaths, get]
  dsimp only
  rw [getData]

theorem mem_headPaths {count : ℕ} {head : Path × UInt32 × ℕ} {src' : List UInt8}
    (get : getHead src = some (head, src')) : head.1 ∈ headPaths (count + 1) src := by
  rw [headPaths, get]
  exact mem_cons_self ..

def Reach (host : Host Key) (manifest : Path) (count : ℕ) (src : List UInt8) (key : Key) : Prop :=
  key = host.resolve manifest ∨ ∃ path ∈ headPaths count src, key = host.resolve path

theorem getEntry_eq {head : Path × UInt32 × ℕ} {src' data src'' : List UInt8}
    (get : getHead src = some (head, src')) (getData : getExact head.2.2 src' = some (data, src'')) :
    getEntry src = some (⟨head.1, head.2.1, data⟩, src'') := by
  simp [getEntry, Get.andThen, Get.give, get, getData]

theorem getFiles_succ {count : ℕ} {e : Entry} {es : List Entry} {src' rest : List UInt8}
    (get : getEntry src = some (e, src')) (getRest : getFiles count src' = some (es, rest)) :
    getFiles (count + 1) src = some (e :: es, rest) := by
  simp [getFiles, Get.andThen, Get.give, get, getRest]

theorem fileWrite_exists (hs : ∀ k, (host.outcome k).saves.isSome) {data : List UInt8} :
    ((fileWrite host path data w).files (host.resolve path)).isSome := by
  unfold fileWrite
  obtain ⟨m, hm⟩ := Option.isSome_iff_exists.mp (hs w.tick)
  rw [hm]
  dsimp only
  rw [set_tock_files]
  rfl

/-- What `unpackFiles` does to the files, and how far it gets. -/
structure FilesRun (host : Host Key) (manifest : Path) (count : ℕ) (done : List Path)
    (src : List UInt8) (w : World Key) (r : List Path × Bool × World Key) : Prop where
  touch : Touch (Reach host manifest count src) w r.2.2
  stopped : r.2.1 = false → r.1.length < done.length + count
  complete : r.2.1 = true → ∃ es rest, getFiles count src = some (es, rest) ∧
    r.1 = done ++ es.map Entry.path ∧
    ((∀ k, (host.outcome k).chmods = true) → ((headPaths count src).map host.resolve).Nodup →
      (∀ path ∈ headPaths count src, host.resolve path ≠ host.resolve manifest) →
      ∀ e ∈ es, r.2.2.files (host.resolve e.path) = some ⟨e.data, e.mode⟩)
  listed : (∀ k, (host.outcome k).saves.isSome = true) →
    (∀ path ∈ headPaths count src, host.resolve path ≠ host.resolve manifest) →
    (done ≠ [] → (w.files (host.resolve manifest)).isSome = true) → r.1 ≠ [] →
    (r.2.2.files (host.resolve manifest)).isSome = true

section
variable {manifest : Path} {count : ℕ} {done : List Path}

omit [DecidableEq Key] in
theorem FilesRun.stop {r : List Path × Bool × World Key} (ht : Touch p w r.2.2)
    (hp : ∀ key, p key → ∃ path ∈ headPaths (count + 1) src, key = host.resolve path)
    (hstop : r.1 = done ∧ r.2.1 = false) : FilesRun host manifest (count + 1) done src w r where
  touch := ht.mono fun key hk => .inr (hp key hk)
  stopped _ := by
    rw [hstop.1]
    omega
  complete h := by
    rw [hstop.2] at h
    cases h
  listed _ hman hw hne := by
    rw [ht.files]
    · exact hw (hstop.1 ▸ hne)
    · intro hk
      obtain ⟨path, hpath, he⟩ := hp _ hk
      exact hman path hpath he.symm

theorem unpackFiles_run (host : Host Key) (manifest : Path) (count : ℕ) (done : List Path)
    (src : List UInt8) (w : World Key) :
    FilesRun host manifest count done src w (unpackFiles host manifest count done src w) := by
  induction count generalizing done src w with
  | zero =>
    exact ⟨(refl w).touch, (fun h => by cases h),
      fun _ => ⟨[], src, rfl, by simp [unpackFiles], by simp⟩, fun _ _ hw => hw⟩
  | succ count ih =>
    cases unpackFiles_step host manifest count done src w with
    | noHead same stopped => exact .stop same.touch (fun _ hk => False.elim hk) stopped
    | noFile head src' get touch stopped =>
      exact .stop touch (fun key hk => ⟨head.1, mem_headPaths get, hk⟩) stopped
    | next head src' data src'' w1 get getData touch file rest =>
      rw [rest]
      obtain ⟨htouch, hstopped, hcomplete, hlisted⟩ :=
        ih (done ++ [head.1]) src'' (appendLine host manifest head.1 w1)
      have happend := appendLine_touch host manifest head.1 w1
      have hpaths := headPaths_succ count get getData
      refine ⟨(touch.mono fun key hk => .inr ⟨head.1, mem_headPaths get, hk⟩).trans
        ((happend.mono fun key hk => .inl hk).trans (htouch.mono ?_)), fun h => ?_, fun h => ?_,
        fun hs hman _ => ?_⟩
      · rintro key (hk | ⟨path, hpath, hk⟩)
        · exact .inl hk
        · exact .inr ⟨path, by rw [hpaths]; exact mem_cons_of_mem _ hpath, hk⟩
      · have := hstopped h
        rw [length_append, length_singleton] at this
        omega
      · obtain ⟨es, tail, hes, hdone, hfiles⟩ := hcomplete h
        refine ⟨⟨head.1, head.2.1, data⟩ :: es, tail, getFiles_succ (getEntry_eq get getData) hes,
          by rw [hdone]; simp, fun hc hnd hman e he => ?_⟩
        rw [hpaths] at hnd hman
        rw [map_cons, nodup_cons] at hnd
        rcases mem_cons.mp he with rfl | he
        · -- the file stays as it is while the rest is unpacked
          have hm := hman head.1 (mem_cons_self ..)
          rw [htouch.files, happend.files _ hm, file hc]
          rintro (hk | ⟨path, hpath, hk⟩)
          · exact hm hk
          · exact hnd.1 (mem_map.mpr ⟨path, hpath, hk.symm⟩)
        · exact hfiles hc hnd.2 (fun path hp => hman path (mem_cons_of_mem _ hp)) e he
      · rw [hpaths] at hman
        exact hlisted hs (fun path hp => hman path (mem_cons_of_mem _ hp))
          fun _ => fileWrite_exists hs

end

/-! Without failures the end of a well-formed archive is reached. -/

section
variable (hf : host.NoFaults)
include hf

theorem createFresh_ok (path : Path) (w : World Key) : (createFresh host path w).1 := by
  unfold createFresh fsCreate
  rcases hx : w.files (host.resolve path) with _ | f
  · simp [hf.creates]
  have hgone : (unlink host path w.tock).2.files (host.resolve path) = none := by
    have hsome : (w.tock.files (host.resolve path)).isSome := by
      change (w.files (host.resolve path)).isSome
      rw [hx]
      rfl
    rw [unlink, if_pos ⟨hsome, hf.unlinks _⟩, set_tock_files]
  simp [hf.creates, hgone]

theorem copyChunks_ok (path : Path) {fuel remaining : ℕ} {src : List UInt8} {w : World Key}
    (hfuel : remaining ≤ fuel) (hsrc : remaining ≤ src.length)
    (hw : (w.files (host.resolve path)).isSome) :
    (copyChunks host path fuel remaining src w).1 := by
  induction fuel generalizing remaining src w with
  | zero => exact decide_eq_true (by omega)
  | succ fuel ih =>
    by_cases hr : remaining = 0
    · rw [copyChunks, if_pos hr]
    rw [copyChunks_succ host path hr]
    have hmin : min remaining 8192 ≤ src.length := by omega
    have hget : getExact (min remaining 8192) src =
        some (src.take (min remaining 8192), src.drop (min remaining 8192)) := if_pos hmin
    obtain ⟨h1, h2⟩ := readExact_readsAll hf _ src w _ hget
    have hsame := (readExact_reads host (min remaining 8192) src w).1
    generalize readExact host (min remaining 8192) src w = r at *
    rcases r with ⟨_ | chunk, src', w'⟩
    · cases h1
    cases h1
    cases h2
    dsimp only
    have hlen : (src.take (min remaining 8192)).length = min remaining 8192 := by
      rw [length_take]
      omega
    obtain ⟨f, hfile⟩ := Option.isSome_iff_exists.mp hw
    have hfile' : w'.files (host.resolve path) = some f := by rw [hsame.files, hfile]
    have hfull : (writeChunk host path (src.take (min remaining 8192)) w').1 =
        (src.take (min remaining 8192)).length := by
      have := hf.writes w'.tick
      unfold writeChunk
      rw [hfile']
      dsimp only
      omega
    rw [if_neg (by rw [hfull, hlen]; simp)]
    apply ih
    · omega
    · rw [length_drop]
      omega
    · rw [writeChunk_full hfile' hfull]
      rfl

theorem extractOneFile_ok (path : Path) (mode : UInt32) {size : ℕ} {src : List UInt8}
    (hsize : size ≤ src.length) (w : World Key) :
    (extractOneFile host path mode size src w).1 := by
  have h1 := createFresh_ok hf path w
  have h2 := createFresh_true h1
  unfold extractOneFile
  generalize createFresh host path w = r at *
  rcases r with ⟨_ | _, w'⟩
  · cases h1
  have h3 := copyChunks_ok hf path (w := w') (by omega : size ≤ src.length + 1) hsize
    (by rw [h2]; rfl)
  dsimp only
  generalize copyChunks host path (src.length + 1) size src w' = r at *
  rcases r with ⟨_ | _, src', w''⟩
  · cases h3
  · rfl

theorem unpackFiles_ok {manifest : Path} {count : ℕ} {done : List Path} {src : List UInt8}
    (h : (getFiles count src).isSome) (w : World Key) :
    (unpackFiles host manifest count done src w).2.1 := by
  induction count generalizing done src w with
  | zero => rfl
  | succ count ih =>
    -- the parts of the format that are there
    obtain ⟨⟨es, rest⟩, hes⟩ := Option.isSome_iff_exists.mp h
    simp only [getFiles, getEntry, Get.andThen, Get.give, Option.bind_eq_some_iff] at hes
    obtain ⟨⟨e, src2⟩, ⟨⟨head, src1⟩, hhead, ⟨data, src2'⟩, hdata, he⟩, ⟨es', rest'⟩, hrest, -⟩ := hes
    cases he
    obtain ⟨h1, h2⟩ := readHead_readsAll hf src w _ hhead
    rw [unpackFiles]
    generalize readHead host src w = r at *
    rcases r with ⟨_ | head', src', w'⟩
    · cases h1
    cases h1
    cases h2
    dsimp only at hdata hrest ⊢
    have hsize : head.2.2 ≤ src1.length := by
      unfold getExact at hdata
      split_ifs at hdata with hn
      exact hn
    have hok := extractOneFile_ok hf head.1 head.2.1 hsize w'
    obtain ⟨data', hdata', -⟩ := extractOneFile_true hok
    generalize extractOneFile host head.1 head.2.1 head.2.2 src1 w' = r at *
    rcases r with ⟨_ | _, src'', w''⟩
    · cases hok
    rw [hdata] at hdata'
    cases hdata'
    exact ih (by rw [hrest]; rfl) _

end

end Exploidus.Rahu
