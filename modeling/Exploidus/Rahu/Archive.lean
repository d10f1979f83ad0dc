import Exploidus.Rahu.Package

/-! The archive format by itself, and what the package manager reads of it. -/
namespace Exploidus.Rahu
open ByteLayout

/-- A part of a format: what it means, if the bytes begin with it, and the bytes after it. -/
abbrev Get (α : Type) := List UInt8 → Option (α × List UInt8)

namespace Get
variable {α β : Type}

def stop : Get α := fun _ => none

def give (a : α) : Get α := fun src => some (a, src)

def andThen (g : Get α) (k : α → Get β) : Get β := fun src => (g src).bind fun p => k p.1 p.2

end Get

def getExact (n : ℕ) : Get (List UInt8) := fun src =>
  if n ≤ src.length then some (src.take n, src.drop n) else none

def getNum (k : ℕ) : Get ℕ := (getExact k).andThen fun bs => .give (le k fun i => bs.getD i 0)

def getField (limit : ℕ) : Get (List UInt8) :=
  (getNum 4).andThen fun n => if limit < n then .stop else getExact n

/-- The header; its meaning is the number of dependencies. -/
def getHeader : Get ℕ :=
  (getExact 4).andThen fun magic =>
    if magic ≠ ascii "FOZU" then .stop
    else
      (getNum 4).andThen fun _ => (getField 200).andThen fun _ => (getField 64).andThen fun _ =>
        getNum 4

def getHead : Get (Path × UInt32 × ℕ) :=
  (getField 200).andThen fun path => (getNum 4).andThen fun mode => (getNum 8).andThen fun size =>
    .give (cstr path, UInt32.ofNat mode, size)

structure Entry where
  path : Path
  mode : UInt32
  data : List UInt8
  deriving DecidableEq

def getEntry : Get Entry :=
  getHead.andThen fun head => (getExact head.2.2).andThen fun data =>
    .give ⟨head.1, head.2.1, data⟩

def getDeps : ℕ → Get (List Path)
  | 0 => .give []
  | count + 1 => (getField 63).andThen fun name => (getDeps count).andThen fun deps =>
      .give (cstr name :: deps)

def getFiles : ℕ → Get (List Entry)
  | 0 => .give []
  | count + 1 => getEntry.andThen fun e => (getFiles count).andThen fun es => .give (e :: es)

/-- What an archive says: the packages it needs and the files it brings. -/
structure Archive where
  deps : List Path
  files : List Entry
  deriving DecidableEq

/-- The part before the files: the dependencies and the number of files. -/
def getPreamble : Get (List Path × ℕ) :=
  getHeader.andThen fun n => (getDeps n).andThen fun deps => (getNum 4).andThen fun count =>
    .give (deps, count)

/-- A well-formed archive; what follows its last file does not matter. -/
def Archive.parse (src : List UInt8) : Option Archive :=
  ((getPreamble.andThen fun p => (getFiles p.2).andThen fun es => .give ⟨p.1, es⟩) src).map Prod.fst

/-- The install paths that can be read, up to a place where the bytes end. -/
def headPaths : ℕ → List UInt8 → List Path
  | 0, _ => []
  | count + 1, src =>
    match getHead src with
    | none => []
    | some (head, src) =>
      head.1 :: match getExact head.2.2 src with
        | none => []
        | some (_, src) => headPaths count src

section
variable {Key : Type} {w w' w'' : World Key} {α β : Type}

structure Same (w w' : World Key) : Prop where
  files : w'.files = w.files
  staging : w'.staging = w.staging
  log : w'.log = w.log

theorem Same.refl (w : World Key) : Same w w := ⟨rfl, rfl, rfl⟩

theorem Same.trans (h : Same w w') (h' : Same w' w'') : Same w w'' :=
  ⟨h'.files.trans h.files, h'.staging.trans h.staging, h'.log.trans h.log⟩

theorem Same.tock (w : World Key) : Same w w.tock := ⟨rfl, rfl, rfl⟩

def Reads (r : Reader Key α) (g : Get α) : Prop :=
  ∀ src w, Same w (r src w).2.2 ∧ ∀ a, (r src w).1 = some a → g src = some (a, (r src w).2.1)

def ReadsAll (r : Reader Key α) (g : Get α) : Prop :=
  ∀ src w p, g src = some p → (r src w).1 = some p.1 ∧ (r src w).2.1 = p.2

theorem Reads.stop : Reads (.stop : Reader Key α) .stop :=
  fun _ w => ⟨Same.refl w, fun _ h => by cases h⟩

theorem Reads.give (a : α) : Reads (.give a : Reader Key α) (.give a) :=
  fun _ w => ⟨Same.refl w, fun _ h => by cases h; rfl⟩

theorem Reads.andThen {r : Reader Key α} {g : Get α} {k : α → Reader Key β} {k' : α → Get β}
    (h : Reads r g) (hk : ∀ a, Reads (k a) (k' a)) : Reads (r.andThen k) (g.andThen k') := by
  intro src w
  have hr := h src w
  unfold Reader.andThen Get.andThen
  rcases he : r src w with ⟨_ | a, src', w'⟩ <;> rw [he] at hr
  · exact ⟨hr.1, fun a ha => by cases ha⟩
  obtain ⟨hs, hg⟩ := hk a src' w'
  refine ⟨hr.1.trans hs, fun b hb => ?_⟩
  rw [hr.2 a rfl]
  exact hg b hb

theorem ReadsAll.stop : ReadsAll (.stop : Reader Key α) .stop := fun _ _ _ h => by cases h

theorem ReadsAll.give (a : α) : ReadsAll (.give a : Reader Key α) (.give a) :=
  fun _ _ _ h => by cases h; exact ⟨rfl, rfl⟩

theorem ReadsAll.andThen {r : Reader Key α} {g : Get α} {k : α → Reader Key β} {k' : α → Get β}
    (h : ReadsAll r g) (hk : ∀ a, ReadsAll (k a) (k' a)) :
    ReadsAll (r.andThen k) (g.andThen k') := by
  intro src w p hp
  unfold Get.andThen at hp
  unfold Reader.andThen
  rcases hg : g src with _ | q <;> rw [hg] at hp
  · cases hp
  obtain ⟨h1, h2⟩ := h src w q hg
  rcases hr : r src w with ⟨_ | a, src', w'⟩ <;> rw [hr] at h1 h2
  · cases h1
  cases h1
  cases h2
  exact hk q.1 q.2 w' p hp

section
variable (host : Host Key)

theorem readExact_reads (n : ℕ) : Reads (readExact host n) (getExact n) := by
  intro src w
  refine ⟨⟨rfl, rfl, rfl⟩, fun bs h => ?_⟩
  unfold readExact at h ⊢
  rcases hp : Chunks.pull n (fun k => (host.outcome k).reads) n w.tick n src with ⟨_ | bs', rest, k⟩ <;>
    rw [hp] at h <;> cases h
  obtain ⟨h1, h2, h3⟩ := Chunks.pull_some hp
  rw [getExact, if_pos h1, h2, h3]

theorem readNum_reads (k : ℕ) : Reads (readNum host k) (getNum k) :=
  (readExact_reads host k).andThen fun _ => Reads.give _

theorem readField_reads (limit : ℕ) : Reads (readField host limit) (getField limit) := by
  refine (readNum_reads host 4).andThen fun n => ?_
  split_ifs
  · exact Reads.stop
  · exact readExact_reads host n

theorem readHeader_reads : Reads (readHeader host) getHeader := by
  refine (readExact_reads host 4).andThen fun magic => ?_
  split_ifs
  · exact Reads.stop
  exact (readNum_reads host 4).andThen fun _ => (readField_reads host 200).andThen fun _ =>
    (readField_reads host 64).andThen fun _ => readNum_reads host 4

theorem readHead_reads : Reads (readHead host) getHead :=
  (readField_reads host 200).andThen fun _ => (readNum_reads host 4).andThen fun _ =>
    (readNum_reads host 8).andThen fun _ => Reads.give _

end

/-- No operation fails; a read may still give less than was asked for. -/
structure Host.NoFaults (host : Host Key) : Prop where
  opens : ∀ k, (host.outcome k).opens = true
  reads : ∀ k, 0 < (host.outcome k).reads
  creates : ∀ k, (host.outcome k).creates = true
  unlinks : ∀ k, (host.outcome k).unlinks = true
  writes : ∀ k, 8192 ≤ (host.outcome k).writes

variable {host : Host Key} (hf : host.NoFaults)
include hf

theorem readExact_readsAll (n : ℕ) : ReadsAll (readExact host n) (getExact n) := by
  intro src w p hp
  unfold getExact at hp
  split_ifs at hp with hn
  cases hp
  unfold readExact
  rcases Nat.eq_zero_or_pos n with rfl | hpos
  · exact ⟨rfl, rfl⟩
  obtain ⟨k', hk'⟩ := Chunks.pull_eq hpos hf.reads w.tick le_rfl hn
  rw [hk']
  exact ⟨rfl, rfl⟩

theorem readNum_readsAll (k : ℕ) : ReadsAll (readNum host k) (getNum k) :=
  (readExact_readsAll hf k).andThen fun _ => ReadsAll.give _

theorem readField_readsAll (limit : ℕ) : ReadsAll (readField host limit) (getField limit) := by
  refine (readNum_readsAll hf 4).andThen fun n => ?_
  split_ifs
  · exact ReadsAll.stop
  · exact readExact_readsAll hf n

theorem readHead_readsAll : ReadsAll (readHead host) getHead :=
  (readField_readsAll hf 200).andThen fun _ => (readNum_readsAll hf 4).andThen fun _ =>
    (readNum_readsAll hf 8).andThen fun _ => ReadsAll.give _

end

end Exploidus.Rahu
