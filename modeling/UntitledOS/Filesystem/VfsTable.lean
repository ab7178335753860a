import UntitledOS.Filesystem.Vfs

/-! Which file systems the VFS calls.

What is registered is a table of its own, empty before the constructor runs (`Table`). The
slots of the VFS are not: they start as whatever the memory held, and `new` writes the
first of them only. So a slot agrees with the table once some call has written it, or if
the memory held null there (`slot_settled`), and until then it holds what the memory held.
Nor do the five operations that call a file system check the index they compute. An
operation keeps to the table exactly when it asks for one of the 26 devices and that
device's slot is settled (`uses_registered`). -/
namespace UntitledOS.Filesystem

namespace VFS

/-! ### The table -/

/-- The file system registered for each device. -/
abbrev Table := Fin DEVICE_MAX → Option u32

inductive Registration where
  | registerFileSystem (fsys deviceID : u32)
  | unregisterFileSystem (fsys : u32)
  | unregisterFileSystemByID (deviceID : u32)

def step (s : VFS) : Registration → VFS
  | .registerFileSystem fsys deviceID => registerFileSystem fsys deviceID s
  | .unregisterFileSystem fsys => unregisterFileSystem fsys s
  | .unregisterFileSystemByID deviceID => unregisterFileSystemByID deviceID s

/-- What a call means for the table. There is no file system at the null pointer. -/
def Registration.apply (t : Table) : Registration → Table
  | .registerFileSystem fsys deviceID => fun d => if deviceID.toNat = d ∧ fsys ≠ 0 then some fsys else t d
  | .unregisterFileSystem fsys => fun d => if t d = some fsys then none else t d
  | .unregisterFileSystemByID deviceID => fun d => if deviceID.toNat = d then none else t d

/-- The calls since the VFS came into being: the constructor's, and the ones after it. -/
def history (fat12 : u32) (calls : List Registration) : List Registration :=
  .registerFileSystem fat12 0 :: calls

def registered (calls : List Registration) : Table := calls.foldl Registration.apply fun _ => none

/-- The call writes the slot of device `d`, over a memory that held `prior` there. -/
def Registration.Writes (prior : u32) (d : Fin DEVICE_MAX) : Registration → Prop
  | .registerFileSystem fsys deviceID => deviceID.toNat = d ∧ fsys ≠ 0
  | .unregisterFileSystem fsys => fsys = prior
  | .unregisterFileSystemByID deviceID => deviceID.toNat = d

/-- The slot of device `d` no longer holds what the memory did, or that was null. -/
def Settled (prior : Fin DEVICE_MAX → u32) (calls : List Registration) (d : Fin DEVICE_MAX) : Prop :=
  prior d = 0 ∨ ∃ c ∈ calls, c.Writes (prior d) d

/-! ### Slots -/

section Slots
variable {prior : Fin DEVICE_MAX → u32}

theorem registerFileSystem_slot (fsys deviceID : u32) (s : VFS) (d : Fin DEVICE_MAX) :
    (registerFileSystem fsys deviceID s).fileSystems d =
      if deviceID.toNat = d ∧ fsys ≠ 0 then fsys else s.fileSystems d := by
  have hd := d.isLt
  unfold registerFileSystem
  by_cases hid : deviceID.toNat = d
  · by_cases hfs : fsys = 0#32 <;> simp [hid, hfs]
  · rw [if_neg fun h : deviceID.toNat = d ∧ fsys ≠ 0 => hid h.1]
    split
    · split <;> simp [hid]
    · rfl

theorem unregisterFileSystemByID_slot (deviceID : u32) (s : VFS) (d : Fin DEVICE_MAX) :
    (unregisterFileSystemByID deviceID s).fileSystems d =
      if deviceID.toNat = d then 0 else s.fileSystems d := by
  have hd := d.isLt
  unfold unregisterFileSystemByID
  by_cases hid : deviceID.toNat = d
  · simp [hid]
  · split <;> simp [hid]

/-- A slot and the table's entry for it, over memory that held `prior`. -/
structure Agrees (prior slot : u32) (entry : Option u32) (settled : Prop) : Prop where
  slot_eq : settled → slot = entry.getD 0
  slot_prior : ¬settled → slot = prior ∧ entry = none
  not_null : entry ≠ some 0

theorem step_agrees {s : VFS} {t : Table} {d : Fin DEVICE_MAX} {settled : Prop}
    (h : Agrees (prior d) (s.fileSystems d) (t d) settled) (c : Registration) :
    Agrees (prior d) ((step s c).fileSystems d) (c.apply t d) (settled ∨ c.Writes (prior d) d) := by
  obtain ⟨hsettled, hprior, hnull⟩ := h
  cases c with
  | registerFileSystem fsys deviceID =>
    simp only [step, registerFileSystem_slot, Registration.apply, Registration.Writes]
    by_cases hid : deviceID.toNat = d ∧ fsys ≠ 0
    · simp only [if_pos hid]
      exact ⟨fun _ => rfl, fun h => absurd (Or.inr hid) h, by simpa using hid.2⟩
    · simp only [if_neg hid, or_iff_left hid]
      exact ⟨hsettled, hprior, hnull⟩
  | unregisterFileSystem fsys =>
    simp only [step, unregisterFileSystem, Registration.apply, Registration.Writes]
    by_cases hs : settled
    · -- slot and entry are one, and so are what becomes of them
      have hslot := hsettled hs
      refine ⟨fun _ => ?_, fun h => absurd (Or.inl hs) h, ?_⟩
      · rw [hslot]
        cases hentry : t d with
        | none => simp
        | some e => by_cases he : e = fsys <;> simp [he]
      · split
        · simp
        · exact hnull
    · obtain ⟨hslot, hentry⟩ := hprior hs
      rw [hslot, hentry]
      refine ⟨fun h => ?_, fun h => ?_, by simp⟩
      · simp [(h.resolve_left hs).symm]
      · have hne : prior d ≠ fsys := fun he => h (.inr he.symm)
        simp [hne]
  | unregisterFileSystemByID deviceID =>
    simp only [step, unregisterFileSystemByID_slot, Registration.apply, Registration.Writes]
    by_cases hid : deviceID.toNat = d
    · simp only [if_pos hid]
      exact ⟨fun _ => rfl, fun h => absurd (Or.inr hid) h, by simp⟩
    · simp only [if_neg hid, or_iff_left hid]
      exact ⟨hsettled, hprior, hnull⟩

theorem run_agrees (calls : List Registration) {s : VFS} {t : Table} {d : Fin DEVICE_MAX} {settled : Prop}
    (h : Agrees (prior d) (s.fileSystems d) (t d) settled) :
    Agrees (prior d) ((calls.foldl step s).fileSystems d) (calls.foldl Registration.apply t d)
      (settled ∨ ∃ c ∈ calls, c.Writes (prior d) d) := by
  induction calls generalizing s t settled with
  | nil => simpa using h
  | cons c cs ih =>
    have hrest := ih (step_agrees h c)
    rw [or_assoc] at hrest
    simpa using hrest

/-- After any calls, a settled slot holds what is registered for its device, and any other
holds what the memory held, with nothing registered. -/
theorem slots_agree (prior : Fin DEVICE_MAX → u32) (calls : List Registration) (d : Fin DEVICE_MAX) :
    Agrees (prior d) ((calls.foldl step ⟨prior⟩).fileSystems d) (registered calls d) (Settled prior calls d) := by
  have hfirst : Agrees (prior d) (prior d) none (prior d = 0) :=
    ⟨fun h => h, fun _ => ⟨rfl, rfl⟩, by simp⟩
  exact run_agrees calls (s := ⟨prior⟩) (t := fun _ => none) hfirst

end Slots

/-! ### Operations -/

inductive Op where
  | openFile (fname : Option (List u8))
  | readFile (file : Option FILE) (length : Nat)
  | closeFile (file : Option FILE)
  | list (deviceID : u32)
  | write (filename content : Y.String)

/-- The indices an operation reads the table at, and the calls it makes. -/
def Op.uses (w : Setting) (s : VFS) : Op → List u32 × List Call
  | .openFile fname => ((s.openFile w fname).indices, (s.openFile w fname).calls)
  | .readFile file length => ((s.readFile w file length).indices, (s.readFile w file length).calls)
  | .closeFile file => ((s.closeFile w file).indices, (s.closeFile w file).calls)
  | .list deviceID => ((s.list w deviceID).indices, (s.list w deviceID).calls)
  | .write filename content => ((s.write w filename content).indices, (s.write w filename content).calls)

/-- The device an operation is about, as an index: the one that the path names, or the
file, or the id itself. -/
def Op.device (w : Setting) : Op → Option u32
  | .openFile fname => (fname.bind openTarget).map fun target => deviceIndex (target.1.setWidth 32)
  | .readFile file _ => file.map fun file => deviceIndex file.device
  | .closeFile file => file.map fun file => deviceIndex file.device
  | .list deviceID => some deviceID
  | .write filename _ => (writeTarget w filename).map fun target => deviceIndex (target.1.setWidth 32)

/-- The file system registered for a device, if it is one. -/
def Table.at (t : Table) (device : u32) : Option u32 :=
  if h : device.toNat < DEVICE_MAX then t ⟨device.toNat, h⟩ else none

/-- The operation uses registered file systems only: it stays in the table, calls what is
registered for the device it is about, and without that opens and lists nothing. -/
structure Op.KeepsTo (t : Table) (w : Setting) (s : VFS) (op : Op) : Prop where
  inside : ∀ index ∈ (op.uses w s).1, index.toNat < DEVICE_MAX
  registered : ∀ c ∈ (op.uses w s).2, t.at c.index = some c.fs
  openFile_invalid : ∀ fname device, op = .openFile fname → op.device w = some device → t.at device = none →
    ∃ file, (s.openFile w fname).result = some file ∧ file.flags = FS_INVALID
  list_empty : ∀ device, op = .list device → t.at device = none → (s.list w device).result = some []

section Operations
variable {w : Setting} {s : VFS} {op : Op}

theorem ask_uses {α : Type} {index : u32} {request : Request} {otherwise : Option α} {answer : u32 → Option α} :
    let o := s.ask w index request otherwise answer
    (o.indices, o.calls) = ([index],
      if s.slot w.around index ≠ 0 then [⟨index, s.slot w.around index, request⟩] else []) := by
  simp only [ask]
  split <;> rfl

theorem ask_result {α : Type} {index : u32} {request : Request} {otherwise : Option α} {answer : u32 → Option α}
    (h : s.slot w.around index = 0) : (s.ask w index request otherwise answer).result = otherwise := by
  rw [ask, if_neg (not_not.mpr h)]

theorem openFile_ask {fname filename : List u8} {letter : u8} (h : openTarget fname = some (letter, filename)) :
    ∃ answer, s.openFile w (some fname) = s.ask w (deviceIndex (letter.setWidth 32)) (.open filename)
      (some {w.file with flags := FS_INVALID}) answer :=
  ⟨_, by rw [openFile, h]⟩

theorem write_ask {filename name content : Y.String} {letter : u8} (h : writeTarget w filename = some (letter, name)) :
    ∃ answer, s.write w filename content = s.ask w (deviceIndex (letter.setWidth 32)) (.writetest name content)
      (some w.disk) answer :=
  ⟨_, by rw [write, h]⟩

/-- An operation reads the slot of its device, and calls what it finds there. -/
theorem uses_device {device : u32} (h : op.device w = some device) :
    ∃ request, op.uses w s = ([device],
      if s.slot w.around device ≠ 0 then [⟨device, s.slot w.around device, request⟩] else []) := by
  cases op with
  | openFile fname =>
    obtain ⟨⟨letter, filename⟩, htarget, rfl⟩ := Option.map_eq_some_iff.mp h
    obtain ⟨fname, rfl, htarget⟩ := Option.bind_eq_some_iff.mp htarget
    obtain ⟨answer, hask⟩ := openFile_ask htarget
    refine ⟨.open filename, ?_⟩
    rw [Op.uses, hask]
    exact ask_uses
  | readFile file length =>
    obtain ⟨file, rfl, rfl⟩ := Option.map_eq_some_iff.mp h
    exact ⟨.read file length, ask_uses⟩
  | closeFile file =>
    obtain ⟨file, rfl, rfl⟩ := Option.map_eq_some_iff.mp h
    exact ⟨.close file, ask_uses⟩
  | list deviceID =>
    obtain rfl := Option.some.inj h
    exact ⟨.list, ask_uses⟩
  | write filename content =>
    obtain ⟨⟨letter, name⟩, htarget, rfl⟩ := Option.map_eq_some_iff.mp h
    obtain ⟨answer, hask⟩ := write_ask htarget
    refine ⟨.writetest name content, ?_⟩
    rw [Op.uses, hask]
    exact ask_uses

theorem uses_nothing (h : op.device w = none) : op.uses w s = ([], []) := by
  cases op with
  | openFile fname =>
    cases fname with
    | none => rfl
    | some fname =>
      have htarget : openTarget fname = none := Option.map_eq_none_iff.mp h
      rw [Op.uses, openFile, htarget]
  | readFile file _ =>
    obtain rfl := Option.map_eq_none_iff.mp h
    rfl
  | closeFile file =>
    obtain rfl := Option.map_eq_none_iff.mp h
    rfl
  | list _ => cases h
  | write filename content =>
    have htarget : writeTarget w filename = none := Option.map_eq_none_iff.mp h
    rw [Op.uses, write, htarget]

/-- Inside the table, an index is a slot. -/
theorem slot_inside {around : u32 → u32} {device : u32} {d : Fin DEVICE_MAX} (h : device.toNat = d) :
    s.slot around device = s.fileSystems d := by
  have hd : (d : Nat) < 26 := d.isLt
  have hoffset : (4 * device).toNat = 4 * d := by
    rw [BitVec.toNat_mul, h]
    exact Nat.mod_eq_of_lt (by simp; omega)
  have hin : (4 * device).toNat < 4 * DEVICE_MAX := by
    rw [hoffset]
    exact Nat.mul_lt_mul_of_pos_left d.isLt (by decide)
  rw [slot, dif_pos hin]
  congr 1
  ext
  show (4 * device).toNat / 4 = d
  omega

/-- With the device's slot inside the table, and the table's entry in it, the operation keeps
to the table. -/
theorem keepsTo_of_slot {t : Table} (hslot : ∀ device, op.device w = some device →
    device.toNat < DEVICE_MAX ∧ s.slot w.around device = (t.at device).getD 0) : op.KeepsTo t w s := by
  refine ⟨?_, ?_, ?_, ?_⟩
  · intro index hindex
    cases hdevice : op.device w with
    | none => simp [uses_nothing hdevice] at hindex
    | some device =>
      obtain ⟨request, huses⟩ := uses_device (s := s) hdevice
      rw [huses] at hindex
      rw [List.mem_singleton.mp hindex]
      exact (hslot device hdevice).1
  · intro c hc
    cases hdevice : op.device w with
    | none => simp [uses_nothing hdevice] at hc
    | some device =>
      obtain ⟨request, huses⟩ := uses_device (s := s) hdevice
      obtain ⟨hin, heq⟩ := hslot device hdevice
      rw [huses] at hc
      split at hc
      · rename_i hcalled
        rw [List.mem_singleton.mp hc]
        rw [heq] at hcalled ⊢
        cases hentry : t.at device with
        | none => simp [hentry] at hcalled
        | some fs => rfl
      · cases hc
  · intro fname device hop hdevice hentry
    obtain ⟨-, heq⟩ := hslot device hdevice
    rw [hentry] at heq
    subst hop
    obtain ⟨⟨letter, filename⟩, htarget, rfl⟩ := Option.map_eq_some_iff.mp hdevice
    obtain ⟨path, rfl, htarget⟩ := Option.bind_eq_some_iff.mp htarget
    obtain ⟨answer, hask⟩ := openFile_ask htarget
    exact ⟨_, by rw [hask, ask_result heq], rfl⟩
  · intro device hop hentry
    subst hop
    obtain ⟨-, heq⟩ := hslot device rfl
    rw [hentry] at heq
    exact ask_result heq

end Operations

/-- After any calls that register and unregister, an operation uses registered file systems
only, exactly when the device it is about is one of the 26 and its slot is settled. -/
theorem uses_registered (prior : Fin DEVICE_MAX → u32) (fat12 : u32) (calls : List Registration) (w : Setting)
    (op : Op) :
    op.KeepsTo (registered (history fat12 calls)) w (calls.foldl step (new prior fat12)) ↔
      ∀ device, op.device w = some device →
        ∃ d : Fin DEVICE_MAX, device.toNat = d ∧ Settled prior (history fat12 calls) d := by
  have hagrees := slots_agree prior (history fat12 calls)
  have hstate : (history fat12 calls).foldl step ⟨prior⟩ = calls.foldl step (new prior fat12) := rfl
  rw [hstate] at hagrees
  generalize calls.foldl step (new prior fat12) = s at hagrees
  generalize registered (history fat12 calls) = t at hagrees
  constructor
  · intro h device hdevice
    obtain ⟨request, huses⟩ := uses_device (s := s) hdevice
    have hin : device.toNat < DEVICE_MAX := h.inside device (by rw [huses]; exact List.mem_singleton_self _)
    refine ⟨⟨device.toNat, hin⟩, rfl, ?_⟩
    by_contra hsettled
    -- the memory's own word is called, with nothing registered
    obtain ⟨hslot, hentry⟩ := (hagrees ⟨device.toNat, hin⟩).slot_prior hsettled
    have hcalled : s.slot w.around device ≠ 0 := by
      rw [slot_inside (d := ⟨device.toNat, hin⟩) rfl, hslot]
      exact fun h => hsettled (.inl h)
    rw [if_pos hcalled] at huses
    have hregistered := h.registered ⟨device, s.slot w.around device, request⟩
      (by rw [huses]; exact List.mem_singleton_self _)
    rw [Table.at, dif_pos hin, hentry] at hregistered
    cases hregistered
  · intro h
    -- what the device's slot holds is its entry
    have hslot : ∀ device, op.device w = some device → device.toNat < DEVICE_MAX ∧
        s.slot w.around device = (t.at device).getD 0 := by
      intro device hdevice
      obtain ⟨d, hd, hsettled⟩ := h device hdevice
      have hin : device.toNat < DEVICE_MAX := hd ▸ d.isLt
      have heq : (⟨device.toNat, hin⟩ : Fin DEVICE_MAX) = d := Fin.ext hd
      refine ⟨hin, ?_⟩
      rw [slot_inside hd, (hagrees d).slot_eq hsettled, Table.at, dif_pos hin, heq]
    exact keepsTo_of_slot hslot

/-- `A:\x` is looked up 32 slots in front of the table. -/
theorem upper_case_outside : ¬ ∀ (prior : Fin DEVICE_MAX → u32) (fat12 : u32) (calls : List Registration)
    (w : Setting) (op : Op), op.KeepsTo (registered (history fat12 calls)) w (calls.foldl step (new prior fat12)) := by
  intro h
  have hkeeps := h (fun _ => 0) 0x1000 [] bareSetting (.openFile (some [0x41, 0x3a, 0x5c, 0x78, 0]))
  exact absurd (hkeeps.inside 0xFFFFFFE0 (by decide)) (by decide)

/-- Where nothing was registered, the word that the memory held is called. -/
example : ((new (fun _ => 0xdead) 0x1000).list bareSetting 1).calls.map Call.fs = [0xdead] := by decide

end VFS

end UntitledOS.Filesystem
