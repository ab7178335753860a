import UntitledOS.Filesystem.Fat12

/-! The virtual file system of `VFS.cpp`.

A table of pointers to file systems, one for each device letter, that eight operations
share. A pointer is an address, 0 for `NULL`, and what it points to is a mounted FAT12
volume. An operation gives the indices it reads the table at, the calls it makes on file
systems and what it returns: the table has 26 slots, and an index outside of them reads
the word so many bytes away.

`openFile` strips the prefix of a path from a pointer and `write` from a string, where
`+= 3` is the overload for an `int` and appends a digit. So the two agree on a path that
has no prefix, and on no other (`write_opened`). -/
namespace UntitledOS.Filesystem
open Lib Y

def DEVICE_MAX : Nat := 26

structure VFS where
  fileSystems : Fin DEVICE_MAX → u32

namespace VFS

/-- A file of a file system, and the device it is on. -/
structure FILE extends Filesystem.FILE where
  device : u32

/-- What a file system is asked for. `open` gets a pointer, here the bytes from it on. -/
inductive Request where
  | open (filename : List u8)
  | read (file : FILE) (length : Nat)
  | close (file : FILE)
  | list
  | writetest (filename content : Y.String)

structure Call where
  index : u32
  fs : u32
  request : Request

/-- What an operation does with `_FileSystems`, and what it returns. -/
structure Outcome (α : Type) where
  indices : List u32
  calls : List Call
  result : Option α

/-- What the operations find: the words around the table, by their distance from it; the
volume behind every pointer; what is behind buffers and in variables nobody has assigned. -/
structure Setting where
  around : u32 → u32
  mounted : u32 → MOUNT_INFO
  disk : Disk
  after : Nat → List u8
  behindDot : Nat × Nat → List u8
  stack : Fin 3 → Filesystem.FILE
  file : FILE
  fresh : Nat → Nat → u8
  behind : List u8
  beyond : Nat → u8
  surroundings : Surroundings

/-! ### Registering -/

def registerFileSystem (fsys deviceID : u32) (s : VFS) : VFS :=
  if deviceID.toNat < DEVICE_MAX then
    if fsys ≠ 0 then ⟨fun d => if deviceID.toNat = d then fsys else s.fileSystems d⟩ else s
  else s

def unregisterFileSystem (fsys : u32) (s : VFS) : VFS :=
  ⟨fun d => if s.fileSystems d = fsys then 0 else s.fileSystems d⟩

def unregisterFileSystemByID (deviceID : u32) (s : VFS) : VFS :=
  if deviceID.toNat < DEVICE_MAX then ⟨fun d => if deviceID.toNat = d then 0 else s.fileSystems d⟩ else s

/-- `VFS::VFS`, over what the memory held, for the pointer `new FAT12()` gives. -/
def new (prior : Fin DEVICE_MAX → u32) (fat12 : u32) : VFS := registerFileSystem fat12 0 ⟨prior⟩

/-! ### Calling -/

/-- `_FileSystems[index]`: four bytes a pointer, in a memory of 32-bit addresses. -/
def slot (around : u32 → u32) (s : VFS) (index : u32) : u32 :=
  if h : (4 * index).toNat < 4 * DEVICE_MAX then s.fileSystems ⟨(4 * index).toNat / 4, by omega⟩
  else around (4 * index)

/-- `if(_FileSystems[index])`, and the call on it. -/
def ask {α : Type} (w : Setting) (index : u32) (request : Request) (otherwise : Option α)
    (answer : u32 → Option α) (s : VFS) : Outcome α :=
  let fs := s.slot w.around index
  if fs ≠ 0 then ⟨[index], [⟨index, fs, request⟩], answer fs⟩ else ⟨[index], [], otherwise⟩

/-- `device - 'a'`. -/
def deviceIndex (device : u32) : u32 := device - 0x61

/-- `device` and `filename` of `openFile`. -/
def openTarget (fname : List u8) : Option (u8 × List u8) :=
  fname[1]?.bind fun c =>
    if c = 0x3a then fname[0]?.map fun device => (device, fname.drop 3) else some (0x61, fname)

def openFile (w : Setting) (fname : Option (List u8)) (s : VFS) : Outcome FILE :=
  match fname with
  | none => ⟨[], [], some {w.file with flags := FS_INVALID}⟩
  | some fname =>
    match openTarget fname with
    | none => ⟨[], [], none⟩
    | some (device, filename) =>
      s.ask w (deviceIndex (device.setWidth 32)) (.open filename) (some {w.file with flags := FS_INVALID})
        fun fs =>
          -- the argument of `open` is a string made from the pointer
          ((Buffer.cString filename).bind (Y.String.ofCStr (w.fresh 0))).bind fun name =>
            (FAT12.open (w.mounted fs) w.after w.stack name.value w.disk).map fun file =>
              ⟨file, device.setWidth 32⟩

def readFile (w : Setting) (file : Option FILE) (length : Nat) (s : VFS) :
    Outcome (Option FILE × (Nat → u8)) :=
  match file with
  | none => ⟨[], [], some (none, w.beyond)⟩
  | some file => s.ask w (deviceIndex file.device) (.read file length) (some (some file, w.beyond)) fun _ =>
    let (read, sector) := FAT12.read file.toFILE w.disk
    some (some {file with toFILE := read}, fun k => if k < 512 then sector k else w.beyond k)

def closeFile (w : Setting) (file : Option FILE) (s : VFS) : Outcome (Option FILE) :=
  match file with
  | none => ⟨[], [], some none⟩
  | some file => s.ask w (deviceIndex file.device) (.close file) (some (some file)) fun _ =>
    some (some {file with flags := FS_INVALID})

def list (w : Setting) (deviceID : u32) (s : VFS) : Outcome (List (List u8)) :=
  s.ask w deviceID .list (some []) fun fs => FAT12.list (w.mounted fs) w.after w.behindDot w.disk

/-- `device` and `filename` of `write`. -/
def writeTarget (w : Setting) (filename : Y.String) : Option (u8 × Y.String) :=
  (filename.buffer ++ w.behind)[1]?.bind fun c =>
    if c = 0x3a then (filename.buffer ++ w.behind)[0]?.bind fun device =>
      (filename.addInt w.fresh 3).map fun filename => (device, filename)
    else some (0x61, filename)

def write (w : Setting) (filename content : Y.String) (s : VFS) : Outcome Disk :=
  match writeTarget w filename with
  | none => ⟨[], [], none⟩
  | some (device, filename) =>
    s.ask w (deviceIndex (device.setWidth 32)) (.writetest filename content) (some w.disk) fun fs =>
      content.c_str.bind fun content => (filename.copyOf (w.fresh 0)).bind fun copy =>
        FAT12.writetest (w.mounted fs) w.surroundings copy.1.value
          (fun k => content.buffer[k]?.getD (w.beyond k)) content.m_size w.disk

/-! ### Paths -/

/-- The letter of the device a path is on, and its file name there. -/
def pathDevice (path : List u8) : u8 := if path[1]? = some 0x3a then path.headD 0 else 0x61

def pathName (path : List u8) : List u8 := if path[1]? = some 0x3a then path.drop 3 else path

/-- The file name in a request. -/
def Request.filename : Request → Option (List u8)
  | .open filename => Buffer.cString filename
  | .writetest filename _ => some filename.value
  | _ => none

/-- The operation asks the file system of the path's device, once, and by the path's name. -/
def Outcome.Addresses {α : Type} (o : Outcome α) (s : VFS) (w : Setting) (path : List u8) : Prop :=
  ∃ request, o.calls = [⟨deviceIndex ((pathDevice path).setWidth 32),
    s.slot w.around (deviceIndex ((pathDevice path).setWidth 32)), request⟩] ∧
      request.filename = some (pathName path)

section Paths
variable {s : VFS} {w : Setting} {index : u32} {request : Request} {α : Type} {otherwise : Option α}
  {answer : u32 → Option α}

theorem ask_called (h : s.slot w.around index ≠ 0) :
    (s.ask w index request otherwise answer).calls = [⟨index, s.slot w.around index, request⟩] := by
  rw [ask, if_pos h]

/-- A call is the one that `ask` makes, so only its request is left to compare. -/
theorem ask_addresses {path : List u8}
    (h : s.slot w.around (deviceIndex ((pathDevice path).setWidth 32)) ≠ 0) :
    (s.ask w (deviceIndex ((pathDevice path).setWidth 32)) request otherwise answer).Addresses s w path ↔
      request.filename = some (pathName path) := by
  simp [Outcome.Addresses, ask_called h]

/-- A C string holds no terminator, and a path without one is its own C string. -/
theorem cString_path {path after : List u8} :
    Buffer.cString (path ++ 0 :: after) = some path ↔ (0 : u8) ∉ path := by
  constructor
  · intro h
    exact (Buffer.cString_some h).1
  · intro h
    exact Buffer.cString_append h

theorem openTarget_path {path after : List u8} (h : 2 ≤ path.length) :
    openTarget (path ++ 0 :: after) = some (pathDevice path,
      if path[1]? = some 0x3a then (path ++ 0 :: after).drop 3 else path ++ 0 :: after) := by
  match path, h with
  | a :: b :: rest, _ => by_cases hb : b = 58#8 <;> simp [openTarget, pathDevice, hb]

theorem writeTarget_path {filename : Y.String} (h : 2 ≤ filename.value.length) :
    writeTarget w filename = if filename.value[1]? = some 0x3a then
      (filename.addInt w.fresh 3).map fun f => (pathDevice filename.value, f)
    else some (pathDevice filename.value, filename) := by
  have hread : ∀ k < 2, (filename.buffer ++ w.behind)[k]? = filename.value[k]? := by
    intro k hk
    rw [String.value, List.length_take] at h
    rw [List.getElem?_append_left (by omega), String.value, List.getElem?_take_of_lt (by omega)]
  rw [writeTarget, hread 0 (by omega), hread 1 (by omega)]
  generalize filename.value = path at h
  obtain ⟨a, path, rfl⟩ := List.exists_cons_of_length_pos (show 0 < path.length by omega)
  obtain ⟨b, rest, rfl⟩ := List.exists_cons_of_length_pos (Nat.succ_le_succ_iff.mp h)
  by_cases hb : b = 58#8 <;> simp [pathDevice, hb]

/-- A character more, in a buffer that holds it. -/
theorem append_length {fresh : Nat → u8} {c : u8} {t u : Y.String} (h : t.append fresh c = some u) :
    u.m_size = t.m_size + 1 ∧ u.value.length = u.m_size := by
  obtain ⟨r, hr, h⟩ := Option.bind_eq_some_iff.mp h
  obtain ⟨buffer, hbuffer, rfl⟩ := Option.map_eq_some_iff.mp h
  have hsize : r.m_size = t.m_size := by
    split at hr
    · obtain ⟨_, -, rfl⟩ := Option.map_eq_some_iff.mp hr
      rfl
    · cases hr
      rfl
  have hroom : r.m_size < r.buffer.length := by
    by_contra hfull
    simp [Buffer.store, hfull] at hbuffer
  rw [Buffer.store_eq hroom] at hbuffer
  obtain rfl := Option.some.inj hbuffer
  refine ⟨by rw [hsize], ?_⟩
  exact String.value_length (by simpa using hroom)

/-- `filename += 3` makes the name longer. -/
theorem addInt_longer {fresh : Nat → Nat → u8} {t u : Y.String} (h : t.addInt fresh 3 = some u) :
    t.value.length < u.value.length := by
  have hdigit : String.itoa 3 = [0x33] := by decide
  rw [String.addInt, hdigit] at h
  obtain ⟨r, hr, hu⟩ := Option.bind_eq_some_iff.mp h
  obtain rfl := Option.some.inj hu
  obtain ⟨hsize, hvalue⟩ := append_length hr
  have : t.value.length ≤ t.m_size := List.length_take_le ..
  omega

/-- The name that `write` passes for a path with a prefix is longer than the path. -/
theorem write_prefixed {filename content : Y.String} (hlen : 3 ≤ filename.value.length)
    (hdrive : filename.value[1]? = some 0x3a)
    (hfs : s.slot w.around (deviceIndex ((pathDevice filename.value).setWidth 32)) ≠ 0) :
    ¬(write w filename content s).Addresses s w filename.value := by
  intro h
  rw [write, writeTarget_path (by omega), if_pos hdrive] at h
  cases hname : filename.addInt w.fresh 3 with
  | none =>
    rw [hname] at h
    obtain ⟨_, hcalls, -⟩ := h
    cases hcalls
  | some name =>
    rw [hname, Option.map_some] at h
    have hvalue : name.value = pathName filename.value := Option.some.inj ((ask_addresses hfs).mp h)
    have hlonger := addInt_longer hname
    rw [hvalue, pathName, if_pos hdrive, List.length_drop] at hlonger
    omega

end Paths

/-- What `openFile` opens and `write` writes is the file that the path names, exactly when
the path has no prefix to strip and no terminator inside. -/
theorem write_opened (s : VFS) (w : Setting) {path after : List u8} {filename content : Y.String}
    (hlen : 3 ≤ path.length) (hvalue : filename.value = path)
    (hfs : s.slot w.around (deviceIndex ((pathDevice path).setWidth 32)) ≠ 0) :
    (openFile w (some (path ++ 0 :: after)) s).Addresses s w path ∧ (write w filename content s).Addresses s w path ↔
      path[1]? ≠ some 0x3a ∧ (0 : u8) ∉ path := by
  subst hvalue
  by_cases hdrive : filename.value[1]? = some 0x3a
  · exact iff_of_false (fun h => write_prefixed hlen hdrive hfs h.2) (fun h => h.1 hdrive)
  · have hname : pathName filename.value = filename.value := if_neg hdrive
    rw [openFile, openTarget_path (by omega), write, writeTarget_path (by omega), if_neg hdrive, if_neg hdrive]
    refine (and_congr (ask_addresses hfs) (ask_addresses hfs)).trans ?_
    rw [hname]
    exact (and_iff_left rfl).trans (cString_path.trans (and_iff_right hdrive).symm)

/-- Nothing but zeros, and one volume in the first slot. -/
def bareSetting : Setting where
  around := fun _ => 0
  mounted := fun _ => ⟨1, 9, 19⟩
  disk := fun _ _ => 0
  after := fun _ => []
  behindDot := fun _ => []
  stack := fun _ => ⟨[], 0, 0, 0, 0, 0⟩
  file := ⟨⟨[], 0, 0, 0, 0, 0⟩, 0⟩
  fresh := fun _ _ => 0
  behind := []
  beyond := fun _ => 0
  surroundings := ⟨fun _ => 0, ⟨0, 0, 0, 0, 0, 0⟩, 0⟩

def firstMounted : VFS := new (fun _ => 0) 0x1000

/-- `file`, without a prefix. -/
def plainPath : List u8 := [0x66, 0x69, 0x6c, 0x65]

theorem write_opened_plain :
    (openFile bareSetting (some (plainPath ++ 0 :: [])) firstMounted).Addresses firstMounted bareSetting plainPath ∧
      (write bareSetting (.ofChars plainPath) .default firstMounted).Addresses firstMounted bareSetting plainPath :=
  (write_opened firstMounted bareSetting (by decide) (by decide) (by decide)).mpr (by decide)

/-- `a:\foo` is written as `a:\foo3`. -/
theorem prefix_kept : ¬ ∀ (s : VFS) (w : Setting) (path after : List u8) (filename content : Y.String),
    3 ≤ path.length → filename.value = path →
    s.slot w.around (deviceIndex ((pathDevice path).setWidth 32)) ≠ 0 →
    (openFile w (some (path ++ 0 :: after)) s).Addresses s w path ∧
      (write w filename content s).Addresses s w path := by
  intro h
  have hboth := h firstMounted bareSetting [0x61, 0x3a, 0x5c, 0x66, 0x6f, 0x6f] []
    (.ofChars [0x61, 0x3a, 0x5c, 0x66, 0x6f, 0x6f]) .default (by decide) (by decide) (by decide)
  exact write_prefixed (by decide) (by decide) (by decide) hboth.2

end VFS

end UntitledOS.Filesystem
