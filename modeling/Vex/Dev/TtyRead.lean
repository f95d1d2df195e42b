import Vex.Dev.TtyInput
import Vex.Errno

/-! Reads from a terminal: `read_input` of `dev/tty_interface.c`, and how reads of any sizes cut the
finished lines of a canonical input. -/

namespace Vex.Dev.Tty

open List

/-! ## The read -/

def Termios.readDone (termios : Termios) (copied size : Nat) : Bool :=
  let wanted := (termios.cc .min).toNat
  let wanted := if wanted = 0 then 1 else wanted
  let wanted := if wanted > size then size else wanted
  copied ≥ wanted || (termios.cc .min = 0 && termios.cc .time = 0)

/-- A turn of the loop of `read_input` that found too little: whether the terminal is gone, what
happens to the input while the read waits, and the answer of `event_await_unlock`. -/
structure Turn where
  removed : Bool
  meanwhile : List TtyOp
  woken : Except Errno Unit

/-- What a read returns; it still waits if no more turns are given. -/
inductive ReadResult
  | bytes (copied : List UInt8)
  | error (errno : Errno)
  | waits
  deriving DecidableEq, Repr

/-- The loop of `read_input`. -/
def readInput (size : Nat) (nonblock : Bool) (turns : List Turn) (copied : List UInt8)
    (d : Discipline) : ReadResult × Discipline :=
  let (more, endOfFile, d) := d.read (size - copied.length)
  let copied := copied ++ more
  if (if d.termios.icanon then !copied.isEmpty || endOfFile
      else d.termios.readDone copied.length size) then (.bytes copied, d)
  else
    match turns with
    | [] => (.waits, d)
    | turn :: turns =>
      -- A hung up terminal reads as end of file
      if turn.removed then (.bytes copied, d)
      else if nonblock then (if copied = [] then .error .EAGAIN else .bytes copied, d)
      else
        let d := turn.meanwhile.foldl Discipline.apply d
        match turn.woken with
        | .error .ETIMEDOUT => (.bytes copied, d)
        | .error errno => (if copied = [] then .error errno else .bytes copied, d)
        | .ok () => readInput size nonblock turns copied d

/-- A call of `read_input`. -/
structure ReadCall where
  size : Nat
  nonblock : Bool
  turns : List Turn

/-- Reads one after another, for as long as there is something to read. -/
def reads : List ReadCall → Discipline → List ReadResult × Discipline
  | [], d => ([], d)
  | call :: calls, d =>
    if d.head = d.lineEnd then ([], d)
    else
      let (result, d) := readInput call.size call.nonblock call.turns [] d
      let (results, d) := reads calls d
      (result :: results, d)

/-! ## Lines -/

/-- A finished line, or what is left of it: its bytes and the byte that ended it, none for VEOF. -/
structure Line where
  text : List UInt8
  stop : Option {c : UInt8 // c ≠ 0}
  deriving DecidableEq

namespace Line

/-- The byte that is stored for the end of a line. -/
def stopByte (line : Line) : UInt8 := (line.stop.map Subtype.val).getD 0

def cells (line : Line) : List Cell := line.text.map (·, false) ++ [(line.stopByte, true)]

/-- What is left of a line, the end included. -/
def drop (line : Line) (k : Nat) : Line := ⟨line.text.drop k, line.stop⟩

variable {line : Line}

theorem length_cells : line.cells.length = line.text.length + 1 := by
  simp [cells]

theorem stopByte_eq_zero_iff : line.stopByte = 0 ↔ line.stop = none := by
  rw [stopByte]
  cases line.stop with
  | none => simp
  | some c => simpa using c.2

end Line

/-- The mark of VEOF. -/
abbrev eofCell : Cell := (0, true)

/-- What a read hands out of some cells: their bytes, without the marks of VEOF. -/
def visible (cells : List Cell) : List UInt8 := (cells.filter (· ≠ eofCell)).map Prod.fst

/-- How many marks of VEOF end an empty line, if the line they start in is begun or not. -/
def emptyEofs : (begun : Bool) → List Cell → Nat
  | _, [] => 0
  | begun, c :: cells => (if !begun && c = eofCell then 1 else 0) + emptyEofs (!c.2) cells

attribute [local simp] emptyEofs

/-- Reads hand out the lines: they split what they take from the ring in parts that hand out their
bytes in order and do not go beyond the end of a line, and there are as many results of no bytes as
lines that were ended by VEOF while empty. -/
def Delivers (lines : List Line) (results : List (List UInt8)) (left : List Cell) : Prop :=
  ∃ parts : List (List Cell), parts.flatten ++ left = lines.flatMap Line.cells ∧
    results = parts.map visible ∧ (∀ part ∈ parts, ∀ c ∈ part.dropLast, c.2 = false) ∧
    results.count [] = emptyEofs false parts.flatten

/-- No read that another one follows asks for just what is left of the text of a line that VEOF
ended, unless that line was empty. -/
def Uncut : List Line → (sizes : List Nat) → Prop
  | line :: lines, size :: sizes =>
    (line.stop = none → line.text ≠ [] → size = line.text.length → sizes = []) ∧
      if size ≤ line.text.length then Uncut (line.drop size :: lines) sizes else Uncut lines sizes
  | _, _ => True

/-! ## A read of one line -/

theorem visible_text_cons (b : UInt8) (cells : List Cell) :
    visible ((b, false) :: cells) = b :: visible cells := by
  simp [visible]

variable {d : Discipline} {line : Line} {more rest : List Cell}

theorem readLoop_cons (hcan : d.termios.icanon) (h : Holds d (c :: more) rest) (left : Nat)
    (copied : List UInt8) :
    Discipline.readLoop (left + 1) copied d =
      if c.2 && c.1 = 0 then (copied, copied.isEmpty, { d with head := d.head + 1 })
      else if c.2 then (copied ++ [c.1], false, { d with head := d.head + 1 })
      else Discipline.readLoop left (copied ++ [c.1]) { d with head := d.head + 1 } := by
  have hne : d.head ≠ d.lineEnd := by
    rw [Ne, h.head_eq_lineEnd_iff]
    exact cons_ne_nil _ _
  have hcell := h.take.1
  have hdelimiter : d.delimiterAt d.head = c.2 := congrArg Prod.snd hcell
  have hbt : d.ringAt d.head = c.1 := congrArg Prod.fst hcell
  rw [Discipline.readLoop, if_neg hne, hdelimiter, hbt, hcan, Bool.true_and]

/-- The loop takes from the first line, up to its end. -/
theorem readLoop_line (hcan : d.termios.icanon) (h : Holds d (line.cells ++ more) rest)
    (left : Nat) (copied : List UInt8) (hsm : 0 < left ∨ copied ≠ []) :
    ∃ d', Discipline.readLoop left copied d =
        (copied ++ visible (line.cells.take left),
          (copied ++ visible (line.cells.take left)).isEmpty, d') ∧
      d'.termios = d.termios ∧ Holds d' (line.cells.drop left ++ more) rest := by
  obtain ⟨text, stop⟩ := line
  induction left generalizing d copied text with
  | zero =>
    have hcopied : copied ≠ [] := hsm.resolve_left (Nat.lt_irrefl 0)
    refine ⟨d, ?_, rfl, h⟩
    simp [Discipline.readLoop, visible, hcopied]
  | succ left ih =>
    cases text with
    | nil =>
      refine ⟨{ d with head := d.head + 1 }, ?_, rfl, ?_⟩
      · rw [readLoop_cons hcan h]
        cases stop with
        | none => simp [Line.cells, Line.stopByte, visible]
        | some c => simp [Line.cells, Line.stopByte, visible, c.2]
      · simpa [Line.cells] using h.take.2
    | cons b text =>
      obtain ⟨d', heq, hter, h'⟩ := ih (d := { d with head := d.head + 1 }) hcan
        (copied ++ [b]) (.inr (by simp)) text h.take.2
      refine ⟨d', ?_, hter, h'⟩
      have htk : visible ((Line.mk (b :: text) stop).cells.take (left + 1)) =
          b :: visible ((Line.mk text stop).cells.take left) := visible_text_cons ..
      rw [readLoop_cons hcan h, heq, htk, append_assoc]
      rfl

/-- A read that finds a line returns at once, with a part of that line. -/
theorem readInput_line (hcan : d.termios.icanon) (h : Holds d (line.cells ++ more) rest)
    {call : ReadCall} (hsz : 1 ≤ call.size) :
    ∃ d', readInput call.size call.nonblock call.turns [] d =
        (.bytes (visible (line.cells.take call.size)), d') ∧
      d'.termios.icanon ∧ Holds d' (line.cells.drop call.size ++ more) rest := by
  obtain ⟨d', heq, hter, h'⟩ := readLoop_line hcan h call.size [] (.inl hsz)
  refine ⟨d', ?_, hter ▸ hcan, h'⟩
  have hrd : d.read (call.size - ([] : List UInt8).length) = _ := heq
  rw [readInput.eq_def, hrd]
  simp [hter, hcan]

/-! ## Reads of many lines -/

/-- The parts that reads take of some lines. -/
def parts : List Line → (sizes : List Nat) → List (List Cell)
  | line :: lines, size :: sizes =>
    line.cells.take size ::
      if size ≤ line.text.length then parts (line.drop size :: lines) sizes else parts lines sizes
  | _, _ => []

/-- The lines that a read of the first one leaves. -/
def Line.after (line : Line) (size : Nat) (lines : List Line) : List Line :=
  if size ≤ line.text.length then line.drop size :: lines else lines

theorem Line.flatMap_after (line : Line) (size : Nat) (lines : List Line) :
    (line.after size lines).flatMap Line.cells =
      line.cells.drop size ++ lines.flatMap Line.cells := by
  rw [Line.after]
  split
  · rename_i hle
    rw [flatMap_cons]
    rw [Line.cells, Line.cells, drop_append_of_le_length (by simpa using hle), ← map_drop]
    rfl
  · rename_i hgt
    rw [drop_eq_nil_of_le (by rw [Line.length_cells]; omega), nil_append]

theorem parts_cons (line : Line) (lines : List Line) (size : Nat) (sizes : List Nat) :
    parts (line :: lines) (size :: sizes) =
      line.cells.take size :: parts (line.after size lines) sizes := by
  rw [parts, Line.after]
  split <;> rfl

theorem uncut_cons (line : Line) (lines : List Line) (size : Nat) (sizes : List Nat) :
    Uncut (line :: lines) (size :: sizes) ↔
      (line.stop = none → line.text ≠ [] → size = line.text.length → sizes = []) ∧
        Uncut (line.after size lines) sizes := by
  rw [Uncut, Line.after]
  split <;> rfl

theorem reads_eq {lines : List Line} (hcan : d.termios.icanon)
    (h : Holds d (lines.flatMap Line.cells) rest) (hszs : ∀ call ∈ calls, 1 ≤ call.size) :
    (reads calls d).1 = (parts lines (calls.map ReadCall.size)).map (.bytes ∘ visible) ∧
      (parts lines (calls.map ReadCall.size)).flatten ++ (reads calls d).2.ready =
        lines.flatMap Line.cells := by
  induction calls generalizing d lines with
  | nil =>
    cases lines with
    | nil => exact ⟨rfl, h.ready_eq⟩
    | cons line lines => exact ⟨rfl, h.ready_eq⟩
  | cons call calls ih =>
    cases lines with
    | nil =>
      rw [reads, if_pos (h.head_eq_lineEnd_iff.mpr rfl)]
      exact ⟨rfl, h.ready_eq⟩
    | cons line lines =>
      rw [flatMap_cons] at h
      have hne : d.head ≠ d.lineEnd := by
        rw [Ne, h.head_eq_lineEnd_iff]
        simp [Line.cells]
      obtain ⟨d', hrd, hcanon', h'⟩ := readInput_line hcan h (hszs call (by simp))
      rw [← Line.flatMap_after] at h'
      obtain ⟨hres, htkn⟩ := ih hcanon' h' fun c hc => hszs c (mem_cons_of_mem _ hc)
      rw [reads, if_neg hne, hrd, map_cons, parts_cons]
      refine ⟨congrArg _ hres, ?_⟩
      rw [flatten_cons, append_assoc]
      rw [htkn, Line.flatMap_after, flatMap_cons, ← append_assoc, take_append_drop]

/-- A part does not go beyond the end of a line. -/
theorem parts_dropLast (lines : List Line) (sizes : List Nat) :
    ∀ part ∈ parts lines sizes, ∀ c ∈ part.dropLast, c.2 = false := by
  induction sizes generalizing lines with
  | nil => cases lines <;> simp [parts]
  | cons size sizes ih =>
    cases lines with
    | nil => simp [parts]
    | cons line lines =>
      rw [parts_cons, forall_mem_cons]
      refine ⟨fun c hc => ?_, ih _⟩
      have hmem : c ∈ line.cells.dropLast := by
        rw [dropLast_eq_take, take_take] at hc
        rw [dropLast_eq_take]
        refine take_subset_take_left _ ?_ hc
        rw [length_take]
        omega
      rw [Line.cells, dropLast_concat] at hmem
      obtain ⟨b, -, rfl⟩ := mem_map.mp hmem
      rfl

/-! ## Ends of file -/

section

variable {size : Nat} (hsz : 1 ≤ size)
include hsz

theorem visible_take_eq_nil_iff : visible (line.cells.take size) = [] ↔ line = ⟨[], none⟩ := by
  obtain ⟨text, stop⟩ := line
  obtain ⟨k, rfl⟩ := Nat.exists_eq_add_of_le' hsz
  cases text with
  | nil =>
    cases stop with
    | none => simp [Line.cells, Line.stopByte, visible]
    | some c => simp [Line.cells, Line.stopByte, visible, c.2]
  | cons b text =>
    have htk : visible ((Line.mk (b :: text) stop).cells.take (k + 1)) =
        b :: visible ((Line.mk text stop).cells.take k) := visible_text_cons ..
    simp [htk]

omit hsz in
theorem emptyEofs_text (begun : Bool) (text : List UInt8) (more : List Cell) :
    emptyEofs begun (text.map (·, false) ++ more) = emptyEofs (begun || !text.isEmpty) more := by
  induction text generalizing begun with
  | nil => simp
  | cons b text ih => simp [ih]

theorem emptyEofs_part (begun : Bool) (line : Line) (more : List Cell) :
    emptyEofs begun (line.cells.take size ++ more) =
      (if begun = false ∧ line = ⟨[], none⟩ then 1 else 0) +
        emptyEofs (size ≤ line.text.length) more := by
  obtain ⟨text, stop⟩ := line
  rcases Nat.lt_or_ge text.length size with hlt | hle
  · rw [take_of_length_le (by rw [Line.length_cells]; exact hlt), Line.cells,
      append_assoc, emptyEofs_text, decide_eq_false (Nat.not_le.mpr hlt)]
    have hsp : (Line.mk text stop).stopByte = 0 ↔ stop = none := Line.stopByte_eq_zero_iff
    cases text with
    | nil => cases begun <;> simp [hsp]
    | cons b text => simp
  · have hne : text ≠ [] := by
      rintro rfl
      rw [length_nil] at hle
      omega
    rw [Line.cells, take_append_of_le_length (by simpa using hle), ← map_take,
      emptyEofs_text, decide_eq_true hle]
    have htk : (text.take size).isEmpty = false := by
      rw [isEmpty_eq_false_iff, Ne, take_eq_nil_iff]
      rintro (h0 | hnil)
      · omega
      · exact hne hnil
    simp [hne, htk]

end

/-- The results of no bytes. -/
def zeros (parts : List (List Cell)) : Nat := (parts.map visible).count []

theorem zeros_cons (hsz : 1 ≤ size) (line : Line) (ps : List (List Cell)) :
    zeros (line.cells.take size :: ps) = (if line = ⟨[], none⟩ then 1 else 0) + zeros ps := by
  rw [zeros, map_cons, count_cons, Nat.add_comm, zeros]
  simp [visible_take_eq_nil_iff hsz]

/-- No end of file is left out. -/
theorem emptyEofs_le_zeros (begun : Bool) (lines : List Line) (hszs : ∀ size ∈ sizes, 1 ≤ size) :
    emptyEofs begun (parts lines sizes).flatten ≤ zeros (parts lines sizes) := by
  induction sizes generalizing begun lines with
  | nil => cases lines <;> simp [parts]
  | cons size sizes ih =>
    cases lines with
    | nil => simp [parts]
    | cons line lines =>
      have hsz := hszs size (by simp)
      rw [parts_cons, flatten_cons, emptyEofs_part hsz, zeros_cons hsz]
      have hrs := ih (size ≤ line.text.length) (line.after size lines)
        fun s hs => hszs s (mem_cons_of_mem _ hs)
      rcases em (line = ⟨[], none⟩) with hemp | hfu
      · rw [if_pos hemp]
        split <;> omega
      · rw [if_neg (fun h => hfu h.2)]
        omega

/-- There are as many ends of file as there should be just if no read stops right before the mark of
a line that has been begun. -/
theorem zeros_eq_iff_uncut (hbegun : begun = true → lines.head? ≠ some ⟨[], none⟩)
    (hszs : ∀ size ∈ sizes, 1 ≤ size) :
    zeros (parts lines sizes) = emptyEofs begun (parts lines sizes).flatten ↔
      Uncut lines sizes := by
  induction sizes generalizing begun lines with
  | nil => cases lines <;> simp [parts, Uncut, zeros]
  | cons size sizes ih =>
    cases lines with
    | nil => simp [parts, Uncut, zeros]
    | cons line lines =>
      have hsz := hszs size (by simp)
      have hsz' : ∀ s ∈ sizes, 1 ≤ s := fun s hs => hszs s (mem_cons_of_mem _ hs)
      have hfst : (begun = false ∧ line = ⟨[], none⟩) ↔ line = ⟨[], none⟩ := by
        refine ⟨And.right, fun heq => ⟨?_, heq⟩⟩
        cases begun with
        | false => rfl
        | true => exact absurd (congrArg some heq) (hbegun rfl)
      rw [parts_cons, flatten_cons, emptyEofs_part hsz, zeros_cons hsz, uncut_cons]
      simp only [hfst, Nat.add_left_cancel_iff]
      by_cases hcut : line.stop = none ∧ line.text ≠ [] ∧ size = line.text.length
      · obtain ⟨hsp, htx, rfl⟩ := hcut
        have haft : line.after line.text.length lines = ⟨[], none⟩ :: lines := by
          rw [Line.after, if_pos (le_refl _), Line.drop, drop_length, hsp]
        rw [haft]
        cases sizes with
        | nil => simp [parts, Uncut, zeros]
        | cons s sizes =>
          have hs := hsz' s (by simp)
          have hle := emptyEofs_le_zeros false (Line.after ⟨[], none⟩ s lines)
            fun t ht => hsz' t (mem_cons_of_mem _ ht)
          have hpos : ¬s ≤ ([] : List UInt8).length := by rw [length_nil]; omega
          rw [parts_cons, zeros_cons hs, flatten_cons, emptyEofs_part hs, if_pos rfl,
            if_neg (by simp), decide_eq_false hpos]
          constructor
          · intro heq
            omega
          · rintro ⟨hlast, -⟩
            exact absurd (hlast hsp htx rfl) (cons_ne_nil _ _)
      · rw [ih _ hsz']
        · refine ⟨fun h => ⟨fun hsp htx hs => ?_, h⟩, And.right⟩
          exact absurd ⟨hsp, htx, hs⟩ hcut
        intro hle hhd
        rw [decide_eq_true_eq] at hle
        rw [Line.after, if_pos hle, head?_cons, Option.some_inj] at hhd
        injection hhd with htx hsp
        rw [drop_eq_nil_iff] at htx
        refine hcut ⟨hsp, ?_, by omega⟩
        rintro hnil
        rw [hnil, length_nil] at hle
        omega

/-! ## Every sequence of reads -/

/-- Reads of any sizes hand out the finished lines and their ends of file just if no read that
another one follows asks for what is left of the text of a line that VEOF ended. -/
theorem canonical_reads_iff_uncut {lines : List Line} (hcanon : d.termios.icanon)
    (h : Holds d (lines.flatMap Line.cells) rest) {calls : List ReadCall}
    (hsizes : ∀ call ∈ calls, 1 ≤ call.size) :
    (∃ results, (reads calls d).1 = results.map .bytes ∧
        Delivers lines results (reads calls d).2.ready) ↔
      Uncut lines (calls.map ReadCall.size) := by
  obtain ⟨hresults, htaken⟩ := reads_eq hcanon h hsizes
  have hsizes' : ∀ size ∈ calls.map ReadCall.size, 1 ≤ size := by
    intro size hmem
    obtain ⟨call, hcall, rfl⟩ := mem_map.mp hmem
    exact hsizes call hcall
  have hbegun : false = true → lines.head? ≠ some ⟨[], none⟩ := by simp
  rw [← zeros_eq_iff_uncut hbegun hsizes']
  constructor
  · rintro ⟨results, heq, ps, hps, -, -, hcount⟩
    have hflat : ps.flatten = (parts lines (calls.map ReadCall.size)).flatten :=
      append_cancel_right (hps.trans htaken.symm)
    have hmap : results = (parts lines (calls.map ReadCall.size)).map visible := by
      rw [hresults, ← map_map] at heq
      exact (map_injective_iff.mpr (fun _ _ => ReadResult.bytes.inj) heq).symm
    rw [hflat, hmap] at hcount
    exact hcount
  · intro hzeros
    refine ⟨(parts lines (calls.map ReadCall.size)).map visible, ?_, _, htaken, rfl,
      parts_dropLast _ _, hzeros⟩
    rw [hresults, map_map]

/-- The letter a and VEOF, typed at a fresh terminal. -/
def typedEof : Discipline :=
  [TtyOp.receive 97 .none, .receive (control 68) .none].foldl Discipline.apply
    (.init (fun _ => 0) defaultTermios)

theorem typedEof_holds : Holds typedEof (List.flatMap Line.cells [⟨[97], none⟩]) [] :=
  ⟨by decide, by decide, by decide, by decide⟩

theorem canonical_reads_iff_uncut_two :
    (∃ results, (reads [⟨2, false, []⟩] typedEof).1 = results.map .bytes ∧
        Delivers [⟨[97], none⟩] results (reads [⟨2, false, []⟩] typedEof).2.ready) ↔
      Uncut [⟨[97], none⟩] [2] :=
  canonical_reads_iff_uncut rfl typedEof_holds (by simp)

/-- Read byte by byte, the line ends with an end of file. -/
theorem read_reports_eof_after_text :
    (reads [⟨1, false, []⟩, ⟨1, false, []⟩] typedEof).1 = [.bytes [97], .bytes []] ∧
      ¬∃ results, (reads [⟨1, false, []⟩, ⟨1, false, []⟩] typedEof).1 = results.map .bytes ∧
        Delivers [⟨[97], none⟩] results
          (reads [⟨1, false, []⟩, ⟨1, false, []⟩] typedEof).2.ready := by
  have hreads : (reads [⟨1, false, []⟩, ⟨1, false, []⟩] typedEof).1 = [.bytes [97], .bytes []] := by
    decide
  have hready : (reads [⟨1, false, []⟩, ⟨1, false, []⟩] typedEof).2.ready = [] := by
    decide
  refine ⟨hreads, ?_⟩
  rintro ⟨results, heq, parts, htaken, -, -, hcount⟩
  obtain rfl : results = [[97], []] := by
    apply map_injective_iff.mpr fun _ _ => ReadResult.bytes.inj
    rw [← heq]
    rfl
  rw [hready, append_nil] at htaken
  rw [htaken] at hcount
  exact absurd hcount (by decide)

end Vex.Dev.Tty
