import Garuda.Core.Types

/-!
# Storage on a local disk

Files are a map from paths, and a path is its components, as `Path` compares it: `a//b` and `a/./b`
are `a/b`.

* `PathBuf` is a path with the functions of it that the backend uses; `withExtension_eq_iff` says
  when a path is its own temporary path.
* `LocalStorageBackend` is the backend. `Fault` is the point at which a write fails; a rename is
  atomic, so it fails before it does anything.
* `AllOrNothing` is what a write promises, and `Harmless` the faults under which it keeps it.

`LocalStorageBackend.allOrNothing_iff` says that it keeps it under no others. The file itself is old
or new at every point: `LocalStorageBackend.write_target`.
-/

namespace Garuda

open Infra

/-! ## Paths -/

/-- A path: whether it starts at the root, and its components. -/
structure PathBuf where
  absolute : Bool
  parts : List String
  deriving DecidableEq

namespace PathBuf

def ofString (s : String) : PathBuf where
  absolute := s.toList.head? = some '/'
  parts := ((s.toList.splitOn '/').map String.ofList).filter fun part => part ≠ "" && part ≠ "."

def display (p : PathBuf) : String :=
  (if p.absolute then "/" else "") ++ "/".intercalate p.parts

def join (base p : PathBuf) : PathBuf :=
  if p.absolute then p else { base with parts := base.parts ++ p.parts }

/-- The path without its last component. -/
def parent (p : PathBuf) : Option PathBuf :=
  if p.parts = [] then none else some { p with parts := p.parts.dropLast }

/-- The last component, unless it leads out. -/
def fileName (p : PathBuf) : Option String :=
  p.parts.getLast?.filter (· ≠ "..")

/-- What is before the last dot, if there is anything. -/
def beforeDot (name : List Char) : List Char := ((name.reverse.dropWhile (· ≠ '.')).drop 1).reverse

/-- What is behind the last dot, or all if there is none. -/
def afterDot (name : List Char) : List Char := (name.reverse.takeWhile (· ≠ '.')).reverse

def stem (name : List Char) : List Char := if beforeDot name = [] then name else beforeDot name

/-- The extension of a name: a dot at its beginning does not start one. -/
def extension (name : List Char) : Option (List Char) :=
  if beforeDot name = [] then none else some (afterDot name)

def nameWith (name ext : String) : String := String.ofList (stem name.toList ++ '.' :: ext.toList)

/-- `with_extension` -/
def withExtension (p : PathBuf) (ext : String) : PathBuf :=
  (p.fileName.map fun name => { p with parts := p.parts.dropLast ++ [nameWith name ext] }).getD p

theorem beforeDot_append {name : List Char} (h : beforeDot name ≠ []) :
    beforeDot name ++ '.' :: afterDot name = name := by
  have hsplit := List.takeWhile_append_dropWhile (p := (· ≠ '.')) (l := name.reverse)
  cases hrest : name.reverse.dropWhile (· ≠ '.') with
  | nil => exact absurd (by rw [beforeDot, hrest]; rfl) h
  | cons c rest =>
    have hdot : c = '.' := by
      have := List.head?_dropWhile_not (· ≠ '.') name.reverse
      rw [hrest] at this
      simpa using this
    have hbefore : beforeDot name = rest.reverse := by rw [beforeDot, hrest]; rfl
    rw [hrest, hdot] at hsplit
    rw [hbefore]
    calc rest.reverse ++ '.' :: afterDot name
        = (name.reverse.takeWhile (· ≠ '.') ++ '.' :: rest).reverse := by
          rw [List.reverse_append, List.reverse_cons, List.append_assoc, List.singleton_append,
            afterDot]
      _ = name := by rw [hsplit, List.reverse_reverse]

/-- A name is its own under an extension when it has that one. -/
theorem stem_append_iff (name ext : List Char) :
    stem name ++ '.' :: ext = name ↔ extension name = some ext := by
  rw [stem, extension]
  split
  · rename_i hnone
    refine iff_of_false (fun heq => ?_) nofun
    have hlen := congrArg List.length heq
    rw [List.length_append, List.length_cons] at hlen
    omega
  · rename_i hdot
    conv_lhs => rhs; rw [← beforeDot_append hdot]
    rw [List.append_cancel_left_eq, List.cons_inj_right, Option.some.injEq]
    exact eq_comm

/-- A path is its own under an extension when its file name has that one, or it has no file name. -/
theorem withExtension_eq_iff (p : PathBuf) (ext : String) :
    p.withExtension ext = p ↔
      ∀ name, p.fileName = some name → extension name.toList = some ext.toList := by
  rw [withExtension]
  cases hname : p.fileName with
  | none => exact iff_of_true rfl nofun
  | some name =>
    have hlast : p.parts.getLast? = some name := (Option.filter_eq_some_iff.mp hname).1
    have hparts : p.parts.dropLast ++ [name] = p.parts := List.dropLast_append_getLast? name hlast
    have hiff : p.parts.dropLast ++ [nameWith name ext] = p.parts ↔
        extension name.toList = some ext.toList := by
      conv_lhs => rhs; rw [← hparts]
      rw [List.append_cancel_left_eq, List.singleton_inj, ← stem_append_iff, ← String.toList_inj,
        nameWith, String.toList_ofList]
    rw [Option.map_some, Option.getD_some]
    constructor
    · rintro heq _ hsome
      rw [← Option.some.inj hsome]
      exact hiff.mp (congrArg PathBuf.parts heq)
    · intro h
      rw [hiff.mpr (h name rfl)]

end PathBuf

/-! ## Files -/

/-- What each file holds. -/
abbrev Files := PathBuf → Option Bytes

namespace Files

variable (files : Files)

/-- A new file, or an old one cut to nothing. -/
def create (p : PathBuf) : Files := Function.update files p (some [])

def append (p : PathBuf) (bytes : Bytes) : Files :=
  Function.update files p ((files p).map (· ++ bytes))

def remove (p : PathBuf) : Files := Function.update files p none

/-- What is at `src` comes to `dst`, in the place of what is there. -/
def rename (src dst : PathBuf) : Files := Function.update (files.remove src) dst (files src)

theorem append_create (p : PathBuf) (bytes : Bytes) :
    (files.create p).append p bytes = Function.update files p (some bytes) := by
  rw [append, create, Function.update_self, Function.update_idem]
  rfl

theorem rename_dst (src dst : PathBuf) : files.rename src dst dst = files src :=
  Function.update_self dst _ _

theorem rename_src {src dst : PathBuf} (h : src ≠ dst) : files.rename src dst src = none := by
  rw [rename, Function.update_of_ne h, remove, Function.update_self]

end Files

/-! ## The backend -/

structure LocalStorageBackend where
  basePath : PathBuf

/-- The point at which a write fails. -/
inductive Fault where
  | createDir
  | create
  /-- After `n` bytes. -/
  | write (n : Nat)
  | sync
  /-- A rename fails before it does anything. Then the temporary file can be removed, or not. -/
  | rename (removed : Bool)
  deriving DecidableEq

namespace LocalStorageBackend

variable (b : LocalStorageBackend)

/-- Join `path` under the base, refusing anything that escapes it. -/
def resolve (path : Path) : Except GarudaError PathBuf :=
  let p := PathBuf.ofString path
  if p.absolute then .error (.storage ("absolute path not allowed: " ++ path))
  else if ".." ∈ p.parts then .error (.storage ("path escapes storage root: " ++ path))
  else .ok (b.basePath.join p)

def read (path : Path) (files : Files) : Except GarudaError Bytes :=
  (b.resolve path).bind fun full => (files full).elim
    (.error (.storage ("read " ++ full.display ++ ": No such file or directory (os error 2)"))) .ok

/-- `write`, which fails at `fault` if at all, with the text `e` of the operating system. -/
def write (fault : Option Fault) (e : String) (path : Path) (data : Bytes) (files : Files) :
    Except GarudaError Unit × Files :=
  match b.resolve path with
  | .error err => (.error err, files)
  | .ok full =>
    match full.parent, fault with
    | some parent, some .createDir =>
      (.error (.storage ("create " ++ parent.display ++ ": " ++ e)), files)
    | _, _ =>
      let tmp := full.withExtension "tmp"
      if fault = some .create then
        (.error (.storage ("create " ++ tmp.display ++ ": " ++ e)), files)
      else
        let files := files.create tmp
        match fault with
        | some (.write n) =>
          (.error (.storage ("write " ++ tmp.display ++ ": " ++ e)),
            files.append tmp (data.take n))
        | _ =>
          let files := files.append tmp data
          if fault = some .sync then
            (.error (.storage ("sync " ++ tmp.display ++ ": " ++ e)), files)
          else
            match fault with
            | some (.rename removed) =>
              (.error (.storage ("rename into " ++ full.display ++ ": " ++ e)),
                if removed then files.remove tmp else files)
            | _ => (.ok (), files.rename tmp full)

/-! ## What a write promises -/

/-- The write gets as far as to create the temporary file. -/
def Created (fault : Option Fault) (full : PathBuf) : Prop :=
  fault ≠ some .create ∧ (fault = some .createDir → full.parent = none)

/-- **All or nothing**: a read finds the new content when the write is `Ok`, and what it found
before when it is not; and a temporary file, once created, is gone. -/
structure AllOrNothing (fault : Option Fault) (path : Path) (data : Bytes) (before : Files)
    (res : Except GarudaError Unit) (after : Files) : Prop where
  content : res = .ok () ∧ b.read path after = .ok data ∨
    (∃ err, res = .error err) ∧ b.read path after = b.read path before
  temp : ∀ full, b.resolve path = .ok full → full.withExtension "tmp" ≠ full →
    Created fault full → after (full.withExtension "tmp") = none

/-- The faults that do no harm. A file that is its own temporary file is spared only where it held
what it is left with. -/
def Harmless (fault : Option Fault) (full : PathBuf) (data : Bytes) (before : Files) : Prop :=
  match fault with
  | none | some .createDir | some .create => True
  | some (.write n) => full.withExtension "tmp" = full ∧ before full = some (data.take n)
  | some .sync | some (.rename false) => full.withExtension "tmp" = full ∧ before full = some data
  | some (.rename true) => full.withExtension "tmp" = full → before full = none

/-! ## What a write leaves -/

/-- What a fault leaves at the temporary path, once the file there is created. -/
def residue (data : Bytes) : Fault → Option Bytes
  | .write n => some (data.take n)
  | .sync | .rename false => some data
  | .createDir | .create | .rename true => none

variable {b} {fault : Option Fault} {e : String} {path : Path} {full : PathBuf} {data : Bytes}
  {files : Files}

theorem read_eq_ok_iff (h : b.resolve path = .ok full) :
    b.read path files = .ok data ↔ files full = some data := by
  rw [read, h, Except.bind]
  cases files full with
  | none => exact iff_of_false nofun nofun
  | some bytes => rw [Option.elim_some, Except.ok.injEq, Option.some.injEq]

theorem read_eq_read_iff {after : Files} (h : b.resolve path = .ok full) :
    b.read path after = b.read path files ↔ after full = files full := by
  rw [read, read, h, Except.bind, Except.bind]
  cases hafter : after full with
  | none =>
    cases files full with
    | none => exact iff_of_true rfl rfl
    | some bytes => exact iff_of_false nofun nofun
  | some bytes =>
    cases files full with
    | none => exact iff_of_false nofun nofun
    | some bytes' =>
      rw [Option.elim_some, Option.elim_some, Except.ok.injEq, Option.some.injEq]

theorem write_rejected {err : GarudaError} (h : b.resolve path = .error err) :
    b.write fault e path data files = (.error err, files) := by
  rw [write, h]

theorem not_created_iff :
    ¬ Created fault full ↔
      fault = some .create ∨ fault = some .createDir ∧ ∃ parent, full.parent = some parent := by
  rw [Created, not_and_or, not_not, Classical.not_imp, ← ne_eq full.parent,
    Option.ne_none_iff_exists']

theorem write_uncreated (h : b.resolve path = .ok full) (hcreated : ¬ Created fault full) :
    ∃ err, b.write fault e path data files = (.error err, files) := by
  rcases not_created_iff.mp hcreated with rfl | ⟨rfl, parent, hparent⟩
  · rw [write, h]
    dsimp only
    cases full.parent <;> exact ⟨_, rfl⟩
  · rw [write, h]
    dsimp only
    rw [hparent]
    exact ⟨_, rfl⟩

theorem write_succeeds (h : b.resolve path = .ok full) (hcreated : Created fault full)
    (hfault : fault = none ∨ fault = some .createDir) :
    b.write fault e path data files
      = (.ok (), Files.rename (Function.update files (full.withExtension "tmp") (some data))
          (full.withExtension "tmp") full) := by
  rcases hfault with rfl | rfl
  · rw [write, h, ← Files.append_create]
    dsimp only
    cases full.parent <;> rfl
  · rw [write, h, ← Files.append_create]
    dsimp only
    rw [hcreated.2 rfl]
    rfl

theorem write_fails {f : Fault} (h : b.resolve path = .ok full)
    (hf : f ≠ .createDir) (hf' : f ≠ .create) :
    ∃ err, b.write (some f) e path data files
      = (.error err, Function.update files (full.withExtension "tmp") (residue data f)) := by
  cases f with
  | createDir => exact absurd rfl hf
  | create => exact absurd rfl hf'
  | write n =>
    rw [write, h, residue, ← Files.append_create]
    dsimp only
    cases full.parent <;> exact ⟨_, rfl⟩
  | sync =>
    rw [write, h, residue, ← Files.append_create]
    dsimp only
    cases full.parent <;> exact ⟨_, rfl⟩
  | rename removed =>
    cases removed with
    | false =>
      rw [write, h, residue, ← Files.append_create]
      dsimp only
      cases full.parent <;> exact ⟨_, rfl⟩
    | true =>
      have hremoved : Function.update files (full.withExtension "tmp") none
          = ((files.create (full.withExtension "tmp")).append
              (full.withExtension "tmp") data).remove (full.withExtension "tmp") := by
        rw [Files.append_create, Files.remove, Function.update_idem]
      rw [write, h, residue, hremoved]
      dsimp only
      cases full.parent <;> exact ⟨_, rfl⟩

/-- A fault after the file is created does no harm where what it leaves is nothing, or is what the
file held that is its own temporary file. -/
theorem harmless_some {f : Fault} (hf : f ≠ .createDir) (hf' : f ≠ .create) :
    Harmless (some f) full data files ↔
      (full.withExtension "tmp" = full → files full = residue data f) ∧
        (full.withExtension "tmp" ≠ full → residue data f = none) := by
  have hleft : ∀ bytes : Bytes, (full.withExtension "tmp" = full ∧ files full = some bytes) ↔
      (full.withExtension "tmp" = full → files full = some bytes) ∧
        (full.withExtension "tmp" ≠ full → some bytes = none) := by
    intro bytes
    by_cases hsame : full.withExtension "tmp" = full
    · simp [hsame]
    · simp [hsame]
  cases f with
  | createDir => exact absurd rfl hf
  | create => exact absurd rfl hf'
  | write n => exact hleft (data.take n)
  | sync => exact hleft data
  | rename removed =>
    cases removed with
    | false => exact hleft data
    | true => exact ⟨fun h => ⟨h, fun _ => rfl⟩, And.left⟩

theorem forall_resolve (h : b.resolve path = .ok full) {P : PathBuf → Prop} :
    (∀ full, b.resolve path = .ok full → P full) ↔ P full := by
  refine ⟨fun hP => hP full h, fun hP full' hfull' => ?_⟩
  rw [h] at hfull'
  exact Except.ok.inj hfull' ▸ hP

theorem harmless_of_uncreated (hcreated : ¬ Created fault full) :
    Harmless fault full data files := by
  rcases not_created_iff.mp hcreated with rfl | ⟨rfl, -⟩
  · trivial
  · trivial

/-- A write that fails before the file is created. -/
theorem allOrNothing_uncreated (h : b.resolve path = .ok full) (hcreated : ¬ Created fault full) :
    b.AllOrNothing fault path data files (b.write fault e path data files).1
      (b.write fault e path data files).2 := by
  obtain ⟨err, hwrite⟩ : ∃ err, b.write fault e path data files = (.error err, files) :=
    write_uncreated h hcreated
  rw [hwrite]
  exact ⟨.inr ⟨⟨err, rfl⟩, rfl⟩, (forall_resolve h).mpr fun _ hc => absurd hc hcreated⟩

/-- A write that does not fail. -/
theorem allOrNothing_succeeds (h : b.resolve path = .ok full) (hcreated : Created fault full)
    (hfault : fault = none ∨ fault = some .createDir) :
    b.AllOrNothing fault path data files (b.write fault e path data files).1
      (b.write fault e path data files).2 := by
  rw [write_succeeds h hcreated hfault]
  refine ⟨.inl ⟨rfl, (read_eq_ok_iff h).mpr ?_⟩, (forall_resolve h).mpr fun hne _ => ?_⟩
  · exact (Files.rename_dst _ _ _).trans (Function.update_self _ _ _)
  · exact Files.rename_src _ hne

/-- A write that fails once the file is created. -/
theorem allOrNothing_fails {f : Fault} (h : b.resolve path = .ok full) (hf : f ≠ .createDir)
    (hf' : f ≠ .create) :
    b.AllOrNothing (some f) path data files (b.write (some f) e path data files).1
        (b.write (some f) e path data files).2 ↔ Harmless (some f) full data files := by
  have hcreated : Created (some f) full :=
    ⟨fun heq => hf' (Option.some.inj heq), fun heq => absurd (Option.some.inj heq) hf⟩
  obtain ⟨err, hwrite⟩ : ∃ err, b.write (some f) e path data files
      = (.error err, Function.update files (full.withExtension "tmp") (residue data f)) :=
    write_fails h hf hf'
  have hfull : Function.update files (full.withExtension "tmp") (residue data f) full = files full ↔
      (full.withExtension "tmp" = full → files full = residue data f) := by
    by_cases hsame : full.withExtension "tmp" = full
    · rw [hsame, Function.update_self]
      exact ⟨fun heq _ => heq.symm, fun himp => (himp rfl).symm⟩
    · rw [Function.update_of_ne (Ne.symm hsame)]
      exact iff_of_true rfl fun heq => absurd heq hsame
  rw [hwrite, harmless_some hf hf', ← hfull]
  constructor
  · rintro ⟨hcontent, htemp⟩
    refine ⟨?_, fun hne => ?_⟩
    · rcases hcontent with ⟨hok, -⟩ | ⟨-, hread⟩
      · exact nomatch hok
      · exact (read_eq_read_iff h).mp hread
    · have hgone : Function.update files (full.withExtension "tmp") (residue data f)
          (full.withExtension "tmp") = none := (forall_resolve h).mp htemp hne hcreated
      rwa [Function.update_self] at hgone
  · rintro ⟨hsame, hgone⟩
    refine ⟨.inr ⟨⟨err, rfl⟩, (read_eq_read_iff h).mpr hsame⟩,
      (forall_resolve h).mpr fun hne _ => ?_⟩
    exact (Function.update_self _ _ _).trans (hgone hne)

variable (b fault e path data files)

/--
**A write is all or nothing exactly where its fault is harmless.**

A fault before the temporary file is created is, and so is a rename that fails when the file can
then be removed. Bytes that cannot be written or synced leave the temporary file behind.
-/
theorem allOrNothing_iff :
    b.AllOrNothing fault path data files (b.write fault e path data files).1
        (b.write fault e path data files).2 ↔
      ∀ full, b.resolve path = .ok full → Harmless fault full data files := by
  cases h : b.resolve path with
  | error err =>
    have hnone : ∀ full, b.resolve path ≠ .ok full := fun full heq => nomatch h.symm.trans heq
    rw [write_rejected h]
    exact iff_of_true ⟨.inr ⟨⟨err, rfl⟩, rfl⟩, fun full hfull => absurd hfull (hnone full)⟩ nofun
  | ok full =>
    rw [← h, forall_resolve h]
    by_cases hcreated : Created fault full
    · cases fault with
      | none => exact iff_of_true (allOrNothing_succeeds h hcreated (.inl rfl)) trivial
      | some f =>
        by_cases hf : f = .createDir
        · subst hf
          exact iff_of_true (allOrNothing_succeeds h hcreated (.inr rfl)) trivial
        · exact allOrNothing_fails h hf fun hf' => hcreated.1 (congrArg some hf')
    · exact iff_of_true (allOrNothing_uncreated h hcreated) (harmless_of_uncreated hcreated)

/-- **A file under any other extension is old or new at every point**: a crash leaves what a fault
at that point leaves. -/
theorem write_target {name : String} (h : b.resolve path = .ok full)
    (hname : full.fileName = some name)
    (hext : PathBuf.extension name.toList ≠ some ['t', 'm', 'p']) :
    (b.write fault e path data files).2 full = files full ∨
      (b.write fault e path data files).1 = .ok () ∧
        (b.write fault e path data files).2 full = some data := by
  have hne : full.withExtension "tmp" ≠ full := fun heq =>
    hext ((PathBuf.withExtension_eq_iff full "tmp").mp heq name hname)
  by_cases hcreated : Created fault full
  · by_cases hfault : fault = none ∨ fault = some .createDir
    · rw [write_succeeds h hcreated hfault]
      exact .inr ⟨rfl, (Files.rename_dst _ _ _).trans (Function.update_self _ _ _)⟩
    · obtain ⟨hsome, hdir⟩ := not_or.mp hfault
      obtain ⟨f, rfl⟩ := Option.ne_none_iff_exists'.mp hsome
      obtain ⟨err, hwrite⟩ : ∃ err, b.write (some f) e path data files
          = (.error err, Function.update files (full.withExtension "tmp") (residue data f)) :=
        write_fails h (fun hf => hdir (congrArg some hf)) fun hf => hcreated.1 (congrArg some hf)
      rw [hwrite]
      exact .inl (Function.update_of_ne hne.symm _ _)
  · obtain ⟨err, hwrite⟩ : ∃ err, b.write fault e path data files = (.error err, files) :=
      write_uncreated h hcreated
    rw [hwrite]
    exact .inl rfl

/-- The disk is full after one byte of two, and that byte stays. -/
theorem allOrNothing_full :
    ¬ (LocalStorageBackend.mk (.ofString "/var/garuda")).AllOrNothing (some (.write 1))
      "kv/block_1.bin" [1, 2] (fun _ => none)
      ((LocalStorageBackend.mk (.ofString "/var/garuda")).write (some (.write 1))
        "No space left on device (os error 28)" "kv/block_1.bin" [1, 2] fun _ => none).1
      ((LocalStorageBackend.mk (.ofString "/var/garuda")).write (some (.write 1))
        "No space left on device (os error 28)" "kv/block_1.bin" [1, 2] fun _ => none).2 := by
  intro hall
  have hgone := hall.temp (.ofString "/var/garuda/kv/block_1.bin") (by decide +kernel)
    (by decide +kernel) ⟨by decide, nofun⟩
  exact absurd hgone (by decide +kernel)

end LocalStorageBackend

end Garuda
