import UntitledOS.Filesystem.Fat12Io
import UntitledOS.Filesystem.Fat12Store
import UntitledOS.Filesystem.IdeRuns

/-! FAT12 over `IDE` over the drive.

The programs of `Fat12Io.lean` ask the IDE driver, which talks to the registers of a drive.
A drive that carries a disk answers them as the disk does (`onDrive_step`), so whatever a
program does over the disk it does over the drive (`Does.onDrive`). With what the volume
keeps over any number of calls this gives the whole stack: files written through the ports
are read back through the ports (`files_on_drive`). -/
namespace UntitledOS.Filesystem
open Lib Lib.Ata IDE

namespace FAT12

/-- The requests through the driver of the drive. -/
def onDrive (q : Quirks) (polls : Nat) : (t : Transfer) → Drive → Option (t.Answer × Drive)
  | .read sector behind, d => IDE.readSector q polls (BitVec.ofNat 32 sector) behind d
  | .write sector buf, d => (IDE.writeSector q polls (BitVec.ofNat 32 sector) buf d).map ((), ·)

/-- The drive is ready for a sector's words within one access, which is all the driver gives it. -/
def Prompt : Transfer → Drive → Prop
  | .read .., _ => True
  | .write .., d => d.pauses.headD 0 ≤ 1

/-- The drive is idle, holds the disk, and has all the sectors of a volume. -/
structure Carries (polls : Nat) (disk : Disk) (d : Drive) : Prop where
  settled : Settled polls d
  sectors : d.sectors = disk
  count : 2880 ≤ d.count

variable {q : Quirks} {polls : Nat} {disk disk' : Disk} {d : Drive}

/-- A request is answered as the disk answers it. -/
theorem onDrive_step (hq : q.Ignores) {t : Transfer} (hd : Carries polls disk d) (hsector : t.sector < 2880)
    (hprompt : Prompt t d) : ∃ r disk' d', onDisk t disk = some (r, disk') ∧
      onDrive q (polls + 1) t d = some (r, d') ∧ Carries polls disk' d' ∧ d'.pauses <:+ d.pauses := by
  obtain ⟨⟨hleft, ⟨error, hidle⟩, hpauses, hmax⟩, rfl, hcount⟩ := hd
  have haddress : ∀ n < 2880, (BitVec.ofNat 32 n : u32).toNat % 2 ^ 28 = n := by
    intro n hn
    rw [BitVec.toNat_ofNat]
    omega
  cases t with
  | read sector behind =>
    have hsector : sector < 2880 := hsector
    obtain ⟨d', hread, hsame, hleft', hidle', hpauses'⟩ := readSector_reads (q := q) (BitVec.ofNat 32 sector) hleft
      hidle (headD_le hpauses) (by rw [haddress sector hsector]; omega) behind
    rw [haddress sector hsector] at hread
    have hsuffix : d'.pauses <:+ d.pauses := hpauses' ▸ List.tail_suffix _
    refine ⟨_, _, d', rfl, hread,
      ⟨⟨?_, ⟨false, hidle'⟩, fun p hp => hpauses p (hsuffix.subset hp), ?_⟩, hsame.sectors, ?_⟩, hsuffix⟩
    · rw [hleft']
      exact Nat.zero_le _
    · rw [hsame.count]
      exact hmax
    · rw [hsame.count]
      exact hcount
  | write sector buf =>
    have hsector : sector < 2880 := hsector
    have hprompt : d.pauses.headD 0 ≤ 1 := hprompt
    obtain ⟨d', hwrite, hleft', hcount', -, hsuffix, hdone⟩ := writeSector_writes hq (BitVec.ofNat 32 sector) hleft
      hidle hpauses (by rw [haddress sector hsector]; omega) buf
    rw [if_pos hprompt, haddress sector hsector] at hdone
    refine ⟨_, _, d', rfl, by rw [onDrive, hwrite]; rfl,
      ⟨⟨?_, ⟨false, hdone.2⟩, fun p hp => hpauses p (hsuffix.subset hp), ?_⟩, hdone.1, ?_⟩, hsuffix⟩
    · rw [hleft']
      exact Nat.zero_le _
    · rw [hcount']
      exact hmax
    · rw [hcount']
      exact hcount

/-- **What a program does over a disk it does over a drive that carries the disk.** -/
theorem Does.onDrive {α : Type} {p : Io α} {a : α} (h : Does (Below 2880) p disk (some (a, disk')))
    (hq : q.Ignores) (hd : Carries polls disk d) (hprompt : p.Admits (FAT12.onDrive q (polls + 1)) Prompt d) :
    ∃ d', p.run (FAT12.onDrive q (polls + 1)) d = some (a, d') ∧ Carries polls disk' d' := by
  refine Prog.simulates (fun t disk d hcarries hbelow hprompt => ?_) p hd h.within hprompt h.run
  obtain ⟨r, disk', d', hdisk, hdrive, hcarries', -⟩ := onDrive_step hq hcarries hbelow hprompt
  exact ⟨r, disk', d', hdisk, hdrive, hcarries'⟩

/-- Reading waits for the drive as long as it takes. -/
theorem Does.readsDrive {α : Type} {p : Io α} {a : α} (h : Does (Reading 2880) p disk (some (a, disk')))
    (hq : q.Ignores) (hd : Carries polls disk d) :
    ∃ d', p.run (FAT12.onDrive q (polls + 1)) d = some (a, d') ∧ Carries polls disk' d' := by
  refine Prog.simulates (fun t disk d hcarries hreading _ => ?_) p hd h.within Prog.admits_any h.run
  cases t with
  | read sector behind =>
    obtain ⟨r, disk', d', hdisk, hdrive, hcarries', -⟩ := onDrive_step hq (t := .read sector behind) hcarries
      hreading trivial
    exact ⟨r, disk', d', hdisk, hdrive, hcarries'⟩
  | write sector buf => exact hreading.elim

/-- A drive that never pauses for more than an access is prompt. -/
theorem Does.prompt {α : Type} {p : Io α} {r : Option (α × Disk)} (h : Does (Below 2880) p disk r)
    (hq : q.Ignores) (hd : Carries polls disk d) (hpauses : ∀ pause ∈ d.pauses, pause ≤ 1) :
    p.Admits (FAT12.onDrive q (polls + 1)) Prompt d := by
  have hstep : ∀ t disk d, (Carries polls disk d ∧ ∀ pause ∈ d.pauses, pause ≤ 1) → Below 2880 t →
      Prompt t d ∧ ∀ r d', FAT12.onDrive q (polls + 1) t d = some (r, d') →
        ∃ disk', onDisk t disk = some (r, disk') ∧ Carries polls disk' d' ∧ ∀ pause ∈ d'.pauses, pause ≤ 1 := by
    rintro t disk d ⟨hcarries, hpauses⟩ hbelow
    have hprompt : Prompt t d := by
      cases t with
      | read sector behind => trivial
      | write sector buf => exact headD_le hpauses
    refine ⟨hprompt, fun r d' hserve => ?_⟩
    obtain ⟨r', disk', d'', hdisk, hdrive, hcarries', hsuffix⟩ := onDrive_step hq hcarries hbelow hprompt
    obtain ⟨rfl, rfl⟩ := Prod.mk.inj (Option.some.inj (hserve.symm.trans hdrive))
    exact ⟨disk', hdisk, hcarries', fun pause hp => hpauses pause (hsuffix.subset hp)⟩
  exact Prog.Admits.transfer hstep ⟨hd, hpauses⟩ h.within

/-! ### Files -/

/-- The driver is mounted, and files are written one after the other. -/
def writeFiles (junk : Nat → u8) (cs : List Call) : Io Unit := do
  let m ← mountIo junk
  cs.forM fun c => writetestIo junk m c.around c.filename c.buffer c.len

/-- It is mounted, and a file is opened and read until `eof`. -/
def readFile (junk : Nat → u8) (after : Nat → List u8) (stack : Fin 3 → FILE) (name : List u8) (fuel : Nat) :
    Io (FILE × List u8) := do
  let m ← mountIo junk
  let file ← openIo junk m after stack name
  let bytes ← readAllIo junk fuel file
  pure (file, bytes)

theorem writeFiles_does (hmount : mount disk = floppy) {junk : Nat → u8} {cs : List Call}
    (hrun : cs.foldlM (step floppy) disk = some disk') :
    Does (Below 2880) (writeFiles junk cs) disk (some ((), disk')) := by
  refine (mountIo_does (show 0 < 2880 by decide)).bind ?_
  rw [hmount]
  clear hmount
  induction cs generalizing disk with
  | nil =>
    obtain rfl : disk = disk' := Option.some.inj hrun
    exact .pure _ () disk
  | cons c cs ih =>
    rw [List.foldlM_cons] at hrun
    obtain ⟨disk₁, hstep, hrun⟩ := Option.bind_eq_some_iff.mp hrun
    have hcall : Does (Below 2880) (writetestIo junk floppy c.around c.filename c.buffer c.len) disk
        ((step floppy disk c).map ((), ·)) := writetestIo_does c.around c.filename c.buffer c.len
    rw [hstep] at hcall
    exact hcall.bind (ih hrun)

/-- **Files written through the ports are read back through the ports**: on a drive that carries a
volume with its log of files, every sequence of calls there is room for comes to an end, and
then each name in the log is opened and read as the first content stored under it. -/
theorem files_on_drive (hq : q.Ignores) {inner : Nat → Option Nat} {L₀ : File → List Nat} {log : Log}
    (hd : Settled polls d) (hcount : 2880 ≤ d.count) (h : Shelved inner d.sectors L₀ log) {cs : List Call}
    (hcs : Acceptable cs) (hroom : HasRoom d.sectors cs) {junk : Nat → u8}
    (hprompt : (writeFiles junk cs).Admits (onDrive q (polls + 1)) Prompt d) :
    ∃ d', (writeFiles junk cs).run (onDrive q (polls + 1)) d = some ((), d') ∧ Settled polls d' ∧
      ∀ name dn content, ValidName name → dosName name = some dn →
        Log.get (log ++ cs.filterMap Call.file) dn = some content → ∀ junk after stack, ∃ fuel file bytes d'',
          (readFile junk after stack name fuel).run (onDrive q (polls + 1)) d' = some ((file, bytes), d'') ∧
            file.flags = FS_FILE ∧ file.fileLength.toNat = content.length ∧ content <+: bytes := by
  obtain ⟨disk, L, hrun, hshelved, -⟩ := h.writes hcs hroom
  obtain ⟨d', hwrites, hd'⟩ := (writeFiles_does h.wellFormed.layout.mount hrun).onDrive hq ⟨hd, rfl, hcount⟩ hprompt
  refine ⟨d', hwrites, hd'.settled, fun name dn content hname hdn hget junk after stack => ?_⟩
  have hopened := hshelved.opened hname hdn after stack
  rw [hget] at hopened
  obtain ⟨f, first, rest, hopen, hflags, hlength, heof, hfirst, hchain, hlast, hcontent⟩ := hopened
  have hle := hlast first (List.mem_cons_self ..)
  have hread := readAll_chain hchain hfirst (by omega) heof
  have hprogram : Does (Reading 2880) (readFile junk after stack name (rest.length + 1)) disk
      (some ((f, (first :: rest).flatMap (clusterBytes disk)), disk)) := by
    have hbelow : ∀ k behind, k < 2880 → Reading 2880 (.read k behind) := fun k _ hk => hk
    refine (mountIo_does (hbelow 0 _ (by decide))).bind ?_
    rw [hshelved.wellFormed.layout.mount]
    have hfile : Does (Reading 2880) (openIo junk floppy after stack name) disk
        ((«open» floppy after stack name disk).map (·, disk)) :=
      openIo_does (fun k behind hk => hbelow k behind (Nat.lt_trans hk (by decide))) stack
    rw [hopen] at hfile
    refine hfile.bind ?_
    have hall : Does (Reading 2880) (readAllIo junk (rest.length + 1) f) disk
        ((readAll disk (rest.length + 1) f).map (·, disk)) :=
      readAllIo_does hchain hlast hfirst heof hbelow _
    rw [hread] at hall
    exact hall.bind (.pure _ _ disk)
  obtain ⟨d'', hreads, -⟩ := hprogram.readsDrive hq hd'
  exact ⟨_, f, _, d'', hreads, hflags, hlength, hcontent⟩

/-- A drive of 2880 sectors that holds an empty volume. -/
def blankDrive : Drive := {someDrive [1, 0, 1] with sectors := blank, count := 2880}

/-- `NEW.TXT`, `OLD.TXT` and `NEW.TXT` again, and then the first of them. -/
theorem files_on_drive_three : ∃ d' fuel file bytes d'',
    (writeFiles (fun _ => 0) threeCalls).run (onDrive ignoring 10) blankDrive = some ((), d') ∧
      (readFile (fun _ => 0) (fun _ => []) (fun _ => ⟨[], 0, 0, 0, 0, 0⟩) newName fuel).run (onDrive ignoring 10) d' =
        some ((file, bytes), d'') ∧ [0x58, 0x58, 0x58] <+: bytes := by
  have hignores : ignoring.Ignores := fun _ => rfl
  have hsettled : Settled 9 blankDrive := ⟨by decide, ⟨false, rfl⟩, by decide, by decide⟩
  obtain ⟨disk, L, hrun, -⟩ := blank_shelved.writes threeCalls_acceptable threeCalls_room
  have hwrites : Does (Below 2880) (writeFiles (fun _ => 0) threeCalls) blank (some ((), disk)) :=
    writeFiles_does blank_wellFormed.layout.mount hrun
  have hprompt := hwrites.prompt hignores (⟨hsettled, rfl, by decide⟩ : Carries 9 blank blankDrive) (by decide)
  obtain ⟨d', hwrites, -, hreads⟩ := files_on_drive hignores hsettled (by decide) blank_shelved threeCalls_acceptable
    threeCalls_room hprompt
  obtain ⟨fuel, file, bytes, d'', hread, -, -, hcontent⟩ := hreads newName _ [0x58, 0x58, 0x58] newName_valid rfl rfl
    (fun _ => 0) (fun _ => []) fun _ => ⟨[], 0, 0, 0, 0, 0⟩
  exact ⟨d', fuel, file, bytes, d'', hwrites, hread, hcontent⟩

end FAT12

end UntitledOS.Filesystem
