import UntitledOS.Libc.Itoa
import UntitledOS.Console.VirtualConsole

/-! Formatted output: `printf.cpp` and the two copies of it in `kprintf.cpp`.

The three differ in the function that takes a character, and so does `formatFrom`. A
pointer to characters is the memory from there on: reading behind it has no result, and
neither has a `va_arg` that finds another type or nothing. What `itoa` and `__itoa` find in
their buffers is an argument, and `written` never exceeds `INT_MAX`.

`render` says what a format stands for, character by character. `formatFrom_render`: while
no character is refused and the output fits an `int`, the output is that. -/
namespace UntitledOS.Libc
open Lib
open Numeral (numeral)
open Y (String)
open Console (VirtualConsole)

def INT_MAX : Nat := 0x7fffffff
def EOF : u32 := -1

inductive Arg where
  | int (n : u32)
  | str (s : List u8)

/-- `va_arg`, of an `int` or an `unsigned int`. -/
def vaInt : List Arg → Option (u32 × List Arg)
  | .int n :: parameters => some (n, parameters)
  | _ => none

/-- `va_arg`, of a `const char *`. -/
def vaStr : List Arg → Option (List u8 × List Arg)
  | .str s :: parameters => some (s, parameters)
  | _ => none

/-- How far it is to the next `%`, or to the end of the format. -/
def literal : List u8 → Option Nat
  | [] => none
  | c :: format => if c = 0 ∨ c = 0x25 then some 0 else (literal format).map (· + 1)

section Format
variable {σ : Type*} (putchar : u32 → σ → u32 × σ)

/-- The loop of `print` over `length` characters from `i` on, and whether all were taken. -/
def print (data : List u8) (i : Nat) : Nat → σ → Option (Bool × σ)
  | 0, s => some (true, s)
  | length + 1, s => data[i]?.bind fun c =>
    let r := putchar (c.setWidth 32) s
    if r.1 = EOF then some (false, r.2) else print data (i + 1) length r.2

/-- `if (maxrem < len) return -1; if (!print(data, len)) return -1;`, and what follows. -/
def emit (written : Nat) (data : List u8) (len : Nat) (s : σ) (next : σ → Option (Int × σ)) : Option (Int × σ) :=
  if INT_MAX - written < len then some (-1, s)
  else (print putchar data 0 len s).bind fun r => if r.1 then next r.2 else some (-1, r.2)

/-- The same of `strlen(str)` characters. -/
def emitStr (written : Nat) (str : List u8) (s : σ) (next : Nat → σ → Option (Int × σ)) : Option (Int × σ) :=
  (strlen str).bind fun len => emit putchar written str len s (next len)

/-- The loop of `printf`, for some turns, and what it returns. -/
def formatFrom (fresh : Nat → Nat → u8) : Nat → List u8 → List Arg → Nat → σ → Option (Int × σ)
  | 0, _, _, _, _ => none
  | _ + 1, [], _, _, _ => none
  | turns + 1, c :: format, parameters, written, s =>
    if c = 0 then some (written, s)
    else if c ≠ 0x25 ∨ format[0]? = some 0x25 then
      let format := if c = 0x25 then format else c :: format
      (literal format.tail).bind fun more =>
        emit putchar written format (more + 1) s
          (formatFrom fresh turns (format.drop (more + 1)) parameters (written + (more + 1)))
    else format[0]?.bind fun d =>
      if d = 0x63 then (vaInt parameters).bind fun p =>
        emit putchar written [p.1.setWidth 8] 1 s (formatFrom fresh turns format.tail p.2 (written + 1))
      else if d = 0x73 then (vaStr parameters).bind fun p =>
        emitStr putchar written p.1 s fun len => formatFrom fresh turns format.tail p.2 (written + len)
      else if d = 0x64 then (vaInt parameters).bind fun p =>
        (itoa p.1 ((List.range 20).map (fresh turns))).bind fun str =>
          emitStr putchar written str s fun len => formatFrom fresh turns format.tail p.2 (written + len)
      else if d = 0x78 then (vaInt parameters).bind fun p =>
        (__itoa p.1 16 ((List.range 32).map (fresh turns))).bind fun str =>
          emitStr putchar written str s fun len => formatFrom fresh turns format.tail p.2 (written + len)
      else
        -- the rest of the format, from the `%` on
        emitStr putchar written (c :: format) s fun len =>
          formatFrom fresh turns ((c :: format).drop len) parameters (written + len)

/-- Every turn takes a character of the format, but the last one. -/
def formatted (fresh : Nat → Nat → u8) (format : List u8) (parameters : List Arg) (s : σ) : Option (Int × σ) :=
  formatFrom putchar fresh (format.length + 1) format parameters 0 s

end Format

/-! ### The three functions -/

def kputchar (ic : u32) (s : VirtualConsole) : u32 × VirtualConsole := (ic, s.putchar (ic.setWidth 8))

/-- `putchar` of the kernel's library, which casts to `char` before `kputchar` does. -/
def putchar (ic : u32) (s : VirtualConsole) : u32 × VirtualConsole :=
  (ic, (kputchar ((ic.setWidth 8).signExtend 32) s).2)

/-- What was sent to a port, with the port, last one last. -/
abbrev Ports := List (u16 × u8)

def soutchar (ic : u32) (ports : Ports) : u32 × Ports := (ic, ports ++ [(0x3F8, ic.setWidth 8)])

def printf (fresh : Nat → Nat → u8) (format : List u8) (parameters : List Arg) (s : VirtualConsole) :
    Option (Int × VirtualConsole) :=
  formatted putchar fresh format parameters s

def kprintf (fresh : Nat → Nat → u8) (format : List u8) (parameters : List Arg) (s : VirtualConsole) :
    Option (Int × VirtualConsole) :=
  formatted kputchar fresh format parameters s

def sout (fresh : Nat → Nat → u8) (format : List u8) (parameters : List Arg) (ports : Ports) : Option (Int × Ports) :=
  formatted soutchar fresh format parameters ports

/-! ### The output of a format -/

/-- The text that `itoa` leaves. -/
def itoaText (n : u32) : Option (List u8) := (itoa n (List.replicate 20 0)).bind Buffer.cString

/-- The text that `__itoa` leaves, in base 16. -/
def hexText (n : u32) : Option (List u8) := (__itoa n 16 (List.replicate 32 0)).bind Buffer.cString

/-- What a format stands for, if its directives find their arguments. -/
def render : List u8 → List Arg → Option (List u8)
  | [], _ => some []
  | [c], _ => some [c]
  | c :: d :: format, parameters =>
    if c ≠ 0x25 then (render (d :: format) parameters).map (c :: ·)
    else if d = 0x25 then (render format parameters).map (0x25 :: ·)
    else if d = 0x63 then (vaInt parameters).bind fun p => (render format p.2).map (p.1.setWidth 8 :: ·)
    else if d = 0x73 then (vaStr parameters).bind fun p =>
      (Buffer.cString p.1).bind fun str => (render format p.2).map (str ++ ·)
    else if d = 0x64 then (vaInt parameters).bind fun p =>
      (itoaText p.1).bind fun str => (render format p.2).map (str ++ ·)
    else if d = 0x78 then (vaInt parameters).bind fun p =>
      (hexText p.1).bind fun str => (render format p.2).map (str ++ ·)
    else some (c :: d :: format)

/-! ### Characters taken -/

section Sink
variable {σ : Type*} {putchar : u32 → σ → u32 × σ} {written : Nat}

/-- Characters given to the function one after the other. -/
def emitted (putchar : u32 → σ → u32 × σ) (cs : List u8) (s : σ) : σ :=
  cs.foldl (fun s c => (putchar (c.setWidth 32) s).2) s

/-- No character is refused. -/
def Accepts (putchar : u32 → σ → u32 × σ) : Prop := ∀ (c : u8) (s : σ), (putchar (c.setWidth 32) s).1 ≠ EOF

theorem print_eq (hput : Accepts putchar) {data : List u8} {i length : Nat} (h : i + length ≤ data.length) (s : σ) :
    print putchar data i length s = some (true, emitted putchar ((data.drop i).take length) s) := by
  induction length generalizing i s with
  | zero => rfl
  | succ length ih =>
    have hi : i < data.length := by omega
    rw [print, List.getElem?_eq_getElem hi, Option.bind_some, if_neg (hput data[i] s), ih (by omega),
      List.drop_eq_getElem_cons hi, List.take_succ_cons]
    rfl

theorem emit_eq (hput : Accepts putchar) {cs : List u8} (hroom : written + cs.length ≤ INT_MAX) (after : List u8)
    (s : σ) (next : σ → Option (Int × σ)) :
    emit putchar written (cs ++ after) cs.length s next = next (emitted putchar cs s) := by
  rw [emit, if_neg (by omega), print_eq hput (by simp), List.drop_zero, List.take_left, Option.bind_some, if_pos rfl]

theorem emitStr_eq (hput : Accepts putchar) {str cs : List u8} (hstr : Buffer.cString str = some cs)
    (hroom : written + cs.length ≤ INT_MAX) (s : σ) (next : Nat → σ → Option (Int × σ)) :
    emitStr putchar written str s next = next cs.length (emitted putchar cs s) := by
  obtain ⟨-, after, rfl⟩ := Buffer.cString_some hstr
  rw [emitStr, strlen_eq, hstr, Option.map_some, Option.bind_some, emit_eq hput hroom]

theorem literal_eq {ls after : List u8} {c : u8} (hls : ∀ l ∈ ls, l ≠ 0 ∧ l ≠ 0x25) (hc : c = 0 ∨ c = 0x25) :
    literal (ls ++ c :: after) = some ls.length := by
  induction ls with
  | nil => exact if_pos hc
  | cons l ls ih =>
    have hl := hls l (List.mem_cons_self ..)
    rw [List.cons_append, literal, if_neg (not_or.mpr hl), ih fun l hl => hls l (List.mem_cons_of_mem _ hl)]
    rfl

end Sink

/-! ### Runs of literal characters -/

theorem render_cons {c : u8} (hc : c ≠ 0x25) (format : List u8) (parameters : List Arg) :
    render (c :: format) parameters = (render format parameters).map (c :: ·) := by
  cases format with
  | nil => rfl
  | cons d format => rw [render, if_pos hc]

theorem render_literal {ls : List u8} (hls : ∀ l ∈ ls, l ≠ 0x25) (format : List u8) (parameters : List Arg) :
    render (ls ++ format) parameters = (render format parameters).map (ls ++ ·) := by
  induction ls with
  | nil => exact Option.map_id'.symm
  | cons l ls ih =>
    rw [List.cons_append, render_cons (hls l (List.mem_cons_self ..)), ih fun l hl => hls l (List.mem_cons_of_mem _ hl),
      Option.map_map]
    rfl

/-- A run of literal characters, and the `%` or the terminator behind it. -/
theorem exists_literal {format : List u8} (hzero : 0 ∉ format) (after : List u8) :
    ∃ ls rest c tail, format = ls ++ rest ∧ rest ++ 0 :: after = c :: tail ∧ (c = 0 ∨ c = 0x25) ∧
      ∀ l ∈ ls, l ≠ 0 ∧ l ≠ 0x25 := by
  induction format with
  | nil => exact ⟨[], [], 0, after, rfl, rfl, Or.inl rfl, by simp⟩
  | cons d format ih =>
    rw [List.mem_cons, not_or] at hzero
    by_cases hd : d = 0x25
    · exact ⟨[], d :: format, d, format ++ 0 :: after, rfl, rfl, Or.inr hd, by simp⟩
    · obtain ⟨ls, rest, c, tail, rfl, hnext, hc, hls⟩ := ih hzero.2
      refine ⟨d :: ls, rest, c, tail, rfl, hnext, hc, fun l hl => ?_⟩
      rcases List.mem_cons.mp hl with rfl | hl
      · exact ⟨Ne.symm hzero.1, hd⟩
      · exact hls l hl

/-! ### The loop -/

section Loop
variable {σ : Type*} {putchar : u32 → σ → u32 × σ} {fresh : Nat → Nat → u8} {after : List u8} {turns written : Nat}

/-- In so many turns, what a format stands for comes out, and is counted. -/
def Renders (putchar : u32 → σ → u32 × σ) (fresh : Nat → Nat → u8) (after : List u8) (turns : Nat) : Prop :=
  ∀ (format : List u8) (parameters : List Arg) (out : List u8) (written : Nat) (s : σ),
    0 ∉ format → format.length < turns → render format parameters = some out → written + out.length ≤ INT_MAX →
    formatFrom putchar fresh turns (format ++ 0 :: after) parameters written s =
      some (((written + out.length : Nat) : Int), emitted putchar out s)

/-- Text that is out, in front of what is still to come. -/
theorem Renders.behind (h : Renders putchar fresh after turns) (text : List u8) {format out : List u8}
    {parameters : List Arg}
    (hzero : 0 ∉ format) (hturns : format.length < turns)
    (hout : (render format parameters).map (text ++ ·) = some out) (hroom : written + out.length ≤ INT_MAX) (s : σ) :
    written + text.length ≤ INT_MAX ∧
      formatFrom putchar fresh turns (format ++ 0 :: after) parameters (written + text.length)
          (emitted putchar text s) =
        some (((written + out.length : Nat) : Int), emitted putchar out s) := by
  obtain ⟨rest, hrest, rfl⟩ := Option.map_eq_some_iff.mp hout
  rw [List.length_append] at hroom
  refine ⟨by omega, ?_⟩
  rw [h format parameters rest _ _ hzero hturns hrest (by omega), List.length_append, Nat.add_assoc, emitted, emitted,
    emitted, List.foldl_append]

/-- A string of known text. -/
theorem Renders.str (h : Renders putchar fresh after turns) (hput : Accepts putchar) {str format text out : List u8}
    {parameters : List Arg} (hstr : Buffer.cString str = some text) (hzero : 0 ∉ format)
    (hturns : format.length < turns) (hout : (render format parameters).map (text ++ ·) = some out)
    (hroom : written + out.length ≤ INT_MAX) (s : σ) :
    emitStr putchar written str s
        (fun len => formatFrom putchar fresh turns (format ++ 0 :: after) parameters (written + len)) =
      some (((written + out.length : Nat) : Int), emitted putchar out s) := by
  obtain ⟨hfits, hrest⟩ := h.behind text hzero hturns hout hroom s
  rw [emitStr_eq hput hstr hfits, hrest]

/-- A character that is not looked at, and the run of literal ones behind it. -/
theorem Renders.run (h : Renders putchar fresh after turns) (hput : Accepts putchar) {c : u8} {format out : List u8}
    {parameters : List Arg} (hzero : 0 ∉ format) (hturns : format.length < turns)
    (hout : (render format parameters).map (c :: ·) = some out) (hroom : written + out.length ≤ INT_MAX) (s : σ) :
    (literal (format ++ 0 :: after)).bind (fun more =>
        emit putchar written (c :: (format ++ 0 :: after)) (more + 1) s
          (formatFrom putchar fresh turns ((c :: (format ++ 0 :: after)).drop (more + 1)) parameters
            (written + (more + 1)))) =
      some (((written + out.length : Nat) : Int), emitted putchar out s) := by
  obtain ⟨ls, rest, d, tail, rfl, hnext, hd, hls⟩ := exists_literal hzero after
  rw [List.mem_append, not_or] at hzero
  rw [List.length_append] at hturns
  rw [render_literal fun l hl => (hls l hl).2, Option.map_map] at hout
  obtain ⟨hfits, hrest⟩ := h.behind (c :: ls) hzero.2 (by omega) hout hroom s
  have hlen : (c :: ls).length = ls.length + 1 := List.length_cons
  rw [List.append_assoc, hnext, literal_eq hls hd, Option.bind_some, ← hlen, ← List.cons_append, emit_eq hput hfits,
    List.drop_left, ← hnext, hrest]

/-- A single character. -/
theorem Renders.char (h : Renders putchar fresh after turns) (hput : Accepts putchar) {c : u8} {format out : List u8}
    {parameters : List Arg} (hzero : 0 ∉ format) (hturns : format.length < turns)
    (hout : (render format parameters).map (c :: ·) = some out) (hroom : written + out.length ≤ INT_MAX) (s : σ) :
    emit putchar written [c] 1 s (formatFrom putchar fresh turns (format ++ 0 :: after) parameters (written + 1)) =
      some (((written + out.length : Nat) : Int), emitted putchar out s) := by
  obtain ⟨hfits, hrest⟩ := h.behind [c] hzero hturns hout hroom s
  exact (emit_eq hput hfits [] s _).trans hrest

/-- All that is left, and nothing behind it. -/
theorem Renders.rest (h : Renders putchar fresh after turns) (hput : Accepts putchar) (format : List u8)
    {parameters : List Arg} (hzero : 0 ∉ format) (hturns : 0 < turns) (hroom : written + format.length ≤ INT_MAX)
    (s : σ) :
    emitStr putchar written (format ++ 0 :: after) s (fun len =>
        formatFrom putchar fresh turns ((format ++ 0 :: after).drop len) parameters (written + len)) =
      some (((written + format.length : Nat) : Int), emitted putchar format s) := by
  have hout : (render [] parameters).map (format ++ ·) = some format := by simp [render]
  obtain ⟨hfits, hrest⟩ := h.behind format List.not_mem_nil hturns hout hroom s
  rw [emitStr_eq hput (Buffer.cString_append hzero) hfits, List.drop_left]
  exact hrest

end Loop

theorem itoaText_eq (n : u32) : itoaText n = some (String.itoa n) := itoa_cString n (by decide)

theorem decimal_leaves (n : u32) (buf : List u8) (hbuf : buf.length = 20) :
    ∃ str, itoa n buf = some str ∧ Buffer.cString str = itoaText n := by
  have hlen := Y.itoa_length n
  refine ⟨_, itoa_text n (by omega), ?_⟩
  rw [Buffer.cString_append (itoa_ne_zero n), itoaText_eq]

theorem hex_leaves (n : u32) (buf : List u8) (hbuf : buf.length = 32) :
    ∃ str, __itoa n 16 buf = some str ∧ Buffer.cString str = hexText n := by
  have hlo : (2 : u32) ≤ 16 := by decide
  have hhi : (16 : u32) ≤ 16 := by decide
  have hdigits : (numeral (16 : u32).toNat n.toNat).length ≤ 8 :=
    Numeral.length_numeral_le (by decide) (by decide) n.isLt
  have htext := numeral_ne_zero hlo hhi n
  refine ⟨_, __itoa_text n hlo hhi (by omega), ?_⟩
  rw [Buffer.cString_append htext, hexText, __itoa_text n hlo hhi (by rw [List.length_replicate]; omega),
    Option.bind_some, Buffer.cString_append htext]

section Turn
variable {σ : Type*} {putchar : u32 → σ → u32 × σ} {fresh : Nat → Nat → u8} {after : List u8} {turns written : Nat}
  {format out : List u8} {parameters : List Arg}

/-- A turn at a directive. -/
theorem Renders.directive (h : Renders putchar fresh after turns) (hput : Accepts putchar) {d : u8} (hd : d ≠ 0x25)
    (hzero : 0 ∉ d :: format) (hturns : format.length + 1 < turns)
    (hout : render (0x25 :: d :: format) parameters = some out) (hroom : written + out.length ≤ INT_MAX) (s : σ) :
    formatFrom putchar fresh (turns + 1) (0x25 :: d :: format ++ 0 :: after) parameters written s =
      some (((written + out.length : Nat) : Int), emitted putchar out s) := by
  have hrest : 0 ∉ format := fun hmem => hzero (List.mem_cons_of_mem d hmem)
  have hturns' : format.length < turns := by omega
  have hsingle : ¬((0x25 : u8) ≠ 0x25 ∨ (d :: format ++ 0 :: after)[0]? = some 0x25) := by simpa using hd
  have hnext : (d :: format ++ 0 :: after)[0]? = some d := rfl
  rw [render, if_neg (by decide), if_neg hd] at hout
  rw [List.cons_append, formatFrom, if_neg (by decide), if_neg hsingle, hnext, Option.bind_some]
  by_cases hchar : d = 0x63
  · rw [if_pos hchar] at hout ⊢
    obtain ⟨p, hp, hout⟩ := Option.bind_eq_some_iff.mp hout
    rw [hp, Option.bind_some]
    exact h.char hput hrest hturns' hout hroom s
  rw [if_neg hchar] at hout ⊢
  by_cases hstr : d = 0x73
  · rw [if_pos hstr] at hout ⊢
    obtain ⟨p, hp, hout⟩ := Option.bind_eq_some_iff.mp hout
    obtain ⟨text, htext, hout⟩ := Option.bind_eq_some_iff.mp hout
    rw [hp, Option.bind_some]
    exact h.str hput htext hrest hturns' hout hroom s
  rw [if_neg hstr] at hout ⊢
  by_cases hdecimal : d = 0x64
  · rw [if_pos hdecimal] at hout ⊢
    obtain ⟨p, hp, hout⟩ := Option.bind_eq_some_iff.mp hout
    obtain ⟨text, htext, hout⟩ := Option.bind_eq_some_iff.mp hout
    obtain ⟨str, hstr, hleaves⟩ := decimal_leaves p.1 ((List.range 20).map (fresh turns)) (by simp)
    rw [hp, Option.bind_some, hstr, Option.bind_some]
    exact h.str hput (hleaves.trans htext) hrest hturns' hout hroom s
  rw [if_neg hdecimal] at hout ⊢
  by_cases hhex : d = 0x78
  · rw [if_pos hhex] at hout ⊢
    obtain ⟨p, hp, hout⟩ := Option.bind_eq_some_iff.mp hout
    obtain ⟨text, htext, hout⟩ := Option.bind_eq_some_iff.mp hout
    obtain ⟨str, hstr, hleaves⟩ := hex_leaves p.1 ((List.range 32).map (fresh turns)) (by simp)
    rw [hp, Option.bind_some, hstr, Option.bind_some]
    exact h.str hput (hleaves.trans htext) hrest hturns' hout hroom s
  rw [if_neg hhex] at hout ⊢
  obtain rfl := Option.some.inj hout
  exact h.rest hput (0x25 :: d :: format) (by simp_all) (by omega) hroom s

/-- A turn at a character that is not a `%`. -/
theorem Renders.ordinary (h : Renders putchar fresh after turns) (hput : Accepts putchar) {c : u8} (hc : c ≠ 0x25)
    (hzero : 0 ∉ c :: format) (hturns : format.length < turns) (hout : render (c :: format) parameters = some out)
    (hroom : written + out.length ≤ INT_MAX) (s : σ) :
    formatFrom putchar fresh (turns + 1) (c :: format ++ 0 :: after) parameters written s =
      some (((written + out.length : Nat) : Int), emitted putchar out s) := by
  rw [List.mem_cons, not_or] at hzero
  rw [render_cons hc] at hout
  rw [List.cons_append, formatFrom, if_neg (Ne.symm hzero.1), if_pos (Or.inl hc)]
  simp only [if_neg hc]
  exact h.run hput hzero.2 hturns hout hroom s

/-- A turn at a doubled `%`. -/
theorem Renders.doubled (h : Renders putchar fresh after turns) (hput : Accepts putchar) (hzero : 0 ∉ format)
    (hturns : format.length < turns) (hout : render (0x25 :: 0x25 :: format) parameters = some out)
    (hroom : written + out.length ≤ INT_MAX) (s : σ) :
    formatFrom putchar fresh (turns + 1) (0x25 :: 0x25 :: format ++ 0 :: after) parameters written s =
      some (((written + out.length : Nat) : Int), emitted putchar out s) := by
  rw [render, if_neg (by decide), if_pos rfl] at hout
  have hdouble : (0x25 : u8) ≠ 0x25 ∨ (0x25 :: format ++ 0 :: after)[0]? = some 0x25 := Or.inr rfl
  rw [List.cons_append, formatFrom, if_neg (by decide), if_pos hdouble]
  exact h.run hput hzero hturns hout hroom s

end Turn

theorem formatFrom_render {σ : Type*} {putchar : u32 → σ → u32 × σ} (hput : Accepts putchar)
    (fresh : Nat → Nat → u8) (after : List u8) (turns : Nat) : Renders putchar fresh after turns := by
  induction turns with
  | zero => exact fun format _ _ _ _ _ hturns => absurd hturns (Nat.not_lt_zero _)
  | succ turns ih =>
    intro format parameters out written s hzero hturns hout hroom
    cases format with
    | nil =>
      obtain rfl := Option.some.inj hout
      exact if_pos rfl
    | cons c format =>
      have hleft : format.length < turns := Nat.lt_of_succ_lt_succ hturns
      by_cases hc : c = 0x25
      · subst hc
        cases format with
        | nil =>
          obtain rfl := Option.some.inj hout
          exact ih.rest hput [0x25] (by decide) hleft hroom s
        | cons d format =>
          have hrest : 0 ∉ d :: format := fun hmem => hzero (List.mem_cons_of_mem _ hmem)
          by_cases hd : d = 0x25
          · subst hd
            have hformat : 0 ∉ format := fun hmem => hrest (List.mem_cons_of_mem _ hmem)
            exact ih.doubled hput hformat (Nat.lt_of_succ_lt hleft) hout hroom s
          · exact ih.directive hput hd hrest hleft hout hroom s
      · exact ih.ordinary hput hc hzero hleft hout hroom s

/-- With as many turns as there are characters. -/
theorem formatted_render {σ : Type*} {putchar : u32 → σ → u32 × σ} (hput : Accepts putchar) (fresh : Nat → Nat → u8)
    {format out after : List u8} {parameters : List Arg} (hzero : 0 ∉ format)
    (hout : render format parameters = some out) (hroom : out.length ≤ INT_MAX) (s : σ) :
    formatted putchar fresh (format ++ 0 :: after) parameters s = some ((out.length : Int), emitted putchar out s) := by
  have hturns : format.length < (format ++ 0 :: after).length + 1 := by
    rw [List.length_append]
    omega
  have hrun := formatFrom_render hput fresh after _ format parameters out 0 s hzero hturns hout (by omega)
  rwa [Nat.zero_add] at hrun

/-! ### What the three put out -/

theorem setWidth_ne_EOF (c : u8) : c.setWidth 32 ≠ EOF := by
  intro h
  have hnat := congrArg BitVec.toNat h
  rw [BitVec.toNat_setWidth] at hnat
  change c.toNat % 2 ^ 32 = 0xffffffff at hnat
  omega

theorem setWidth_setWidth (c : u8) : (c.setWidth 32).setWidth 8 = c := by simp

theorem accepts_putchar : Accepts putchar := fun c _ => setWidth_ne_EOF c
theorem accepts_kputchar : Accepts kputchar := fun c _ => setWidth_ne_EOF c
theorem accepts_soutchar : Accepts soutchar := fun c _ => setWidth_ne_EOF c

theorem emitted_kputchar (cs : List u8) (s : VirtualConsole) : emitted kputchar cs s = s.print cs := by
  simp only [emitted, kputchar, setWidth_setWidth]
  rfl

theorem emitted_putchar (cs : List u8) (s : VirtualConsole) : emitted putchar cs s = s.print cs := by
  have hchar (c : u8) : (c.signExtend 32).setWidth 8 = c := by
    revert c
    decide +kernel
  simp only [emitted, putchar, kputchar, setWidth_setWidth, hchar]
  rfl

theorem emitted_soutchar (cs : List u8) (ports : Ports) :
    emitted soutchar cs ports = ports ++ cs.map fun c => (0x3F8, c) := by
  induction cs generalizing ports with
  | nil => exact (List.append_nil ports).symm
  | cons c cs ih =>
    have hstep := ih (ports ++ [(0x3F8, c)])
    rw [List.append_assoc] at hstep
    simpa [emitted, soutchar, setWidth_setWidth] using hstep

/-- What the console calls `printStr` is `printf("%s", str)`. -/
theorem printf_str (fresh : Nat → Nat → u8) (str after : List u8) (hroom : (str.takeWhile (· ≠ 0)).length ≤ INT_MAX)
    (s : VirtualConsole) :
    printf fresh [0x25, 0x73, 0] [.str (str ++ 0 :: after)] s =
      some (((str.takeWhile (· ≠ 0)).length : Int), s.printStr str) := by
  have hout : render [0x25, 0x73] [.str (str ++ 0 :: after)] = some (str.takeWhile (· ≠ 0)) := by
    rw [render, if_neg (by decide), if_neg (by decide), if_neg (by decide), if_pos rfl, vaStr, Option.bind_some,
      Buffer.cString_zero, Option.bind_some, render, Option.map_some, List.append_nil]
  rw [VirtualConsole.printStr, ← emitted_putchar]
  exact formatted_render accepts_putchar fresh (by decide) hout hroom s

/-- Text without directives is printed as it stands. -/
theorem printf_text (fresh : Nat → Nat → u8) {text : List u8} (after : List u8)
    (htext : ∀ c ∈ text, c ≠ 0 ∧ c ≠ 0x25) (hroom : text.length ≤ INT_MAX) (s : VirtualConsole) :
    printf fresh (text ++ 0 :: after) [] s = some ((text.length : Int), s.print text) := by
  have hout : render text [] = some text := by
    have hrun := render_literal (fun c hc => (htext c hc).2) [] []
    rwa [List.append_nil, render, Option.map_some, List.append_nil] at hrun
  have hzero : 0 ∉ text := fun hmem => (htext 0 hmem).1 rfl
  rw [printf, formatted_render accepts_putchar fresh hzero hout hroom, emitted_putchar]

/-- **`printf`, `kprintf` and `sout` put out what the format stands for, and return how many
characters that is.** -/
theorem printf_render (fresh : Nat → Nat → u8) (format after : List u8) (parameters : List Arg) (out : List u8)
    (hzero : 0 ∉ format) (hout : render format parameters = some out) (hroom : out.length ≤ INT_MAX) :
    (∀ s : VirtualConsole, printf fresh (format ++ 0 :: after) parameters s = some ((out.length : Int), s.print out)) ∧
      (∀ s : VirtualConsole,
        kprintf fresh (format ++ 0 :: after) parameters s = some ((out.length : Int), s.print out)) ∧
      ∀ ports : Ports, sout fresh (format ++ 0 :: after) parameters ports =
        some ((out.length : Int), ports ++ out.map fun c => (0x3F8, c)) := by
  refine ⟨fun s => ?_, fun s => ?_, fun ports => ?_⟩
  · rw [printf, formatted_render accepts_putchar fresh hzero hout hroom, emitted_putchar]
  · rw [kprintf, formatted_render accepts_kputchar fresh hzero hout hroom, emitted_kputchar]
  · rw [sout, formatted_render accepts_soutchar fresh hzero hout hroom, emitted_soutchar]

/-- `sout("%d%%", -7)`. -/
theorem sout_percent :
    sout (fun _ _ => 0) [0x25, 0x64, 0x25, 0x25, 0] [.int (-7)] [] =
      some (3, [(0x3F8, 0x2d), (0x3F8, 0x37), (0x3F8, 0x25)]) :=
  (printf_render (fun _ _ => 0) [0x25, 0x64, 0x25, 0x25] [] [.int (-7)] [0x2d, 0x37, 0x25] (by decide) (by decide)
    (by decide)).2.2 []

end UntitledOS.Libc
