/-
  EDarts.Runtime.PrintServerBounds — where `printing_server` reads and writes (see
  `EDarts.Runtime.Print`).

  `serverAccesses` are the accesses of one pass of the decoding loop to the message, to
  `arguments`, to `processedBuffer` and to the macro's `myChar`, in order;
  `processed_writes` and `argument_reads` tie them to the pieces of `process`. `sprintf`
  is any function from a letter and a value to what it stores before its own 0; what is
  copied from `tempBuffer` is that up to the first 0.

  `TRANSFORM_PARAMETER` ends its format string at `myChar[3]`, one past the array.

  - `server_inside_iff`: a pass stays inside all four exactly when the message has no `%`.
  - `myChar_inside_iff`, `head_inside_iff`, `arguments_inside_iff`, `processed_inside_iff`:
    and inside each of them exactly when the message has no `%`; when no `%` stands last,
    without a letter; when the values read have at most 100 bytes together; and when what
    is printed has less than 400 characters, for which 22 integers are few enough
    (`processed_inside_of_few`), not 23.
-/

import EDarts.Runtime.PrintBounds

namespace EDarts.Runtime.Print

open Lib

inductive HostAccess where
  | readHead (i : Nat)
  | readArgument (i : Nat)
  | writeProcessed (i : Nat) (c : Byte)
  | writeMyChar (i : Nat)
  deriving DecidableEq, Repr

/-! ## The accesses of a pass -/

/-- `sprintf`: the characters for a letter and a value. -/
abbrev Sprintf := Byte → Value → List Byte

/-- What the loop over `tempBuffer` copies. -/
def formatted (sprintf : Sprintf) (letter : Byte) : Option Value → List Byte
  | some value => (sprintf letter value).takeWhile (· ≠ 0)
  | none => []

/-- Writes from `currentStr` on. -/
def written (currentStr : Nat) (text : List Byte) : List HostAccess :=
  (text.zipIdx currentStr).map fun x => .writeProcessed x.2 x.1

/-- The value's bytes, from an offset in `arguments` on. -/
def argumentReads (argument : Nat) : Option Value → List HostAccess
  | some value => (List.range' argument value.type.size).map .readArgument
  | none => []

/-- What `TRANSFORM_PARAMETER` does to `myChar`, with the letter at `i`. -/
def myCharAccesses (i : Nat) : List HostAccess := [.writeMyChar 0, .readHead i, .writeMyChar 1, .writeMyChar 3]

/-- The loop over the message, at most `fuel` tests of it. -/
def serverLoop (sprintf : Sprintf) (endian : Endian) (body : Nat → Byte) : Nat → Nat → Nat → Nat → List HostAccess
  | 0, _, _, _ => []
  | fuel + 1, charCount, argPointer, currentStr =>
    .readHead charCount ::
      if body charCount ≠ 0 ∧ charCount < MAX_NUM_CHARACTERS then
        if body charCount = chr '%' then
          let letter := body (charCount + 1)
          let r := TRANSFORM_PARAMETER endian letter body argPointer
          let text := formatted sprintf letter r.1
          myCharAccesses (charCount + 1) ++ argumentReads (argPointer - ARGUMENTS) r.1 ++ written currentStr text ++
            serverLoop sprintf endian body fuel (charCount + 2) r.2 (currentStr + text.length)
        else
          .writeProcessed currentStr (body charCount) ::
            serverLoop sprintf endian body fuel (charCount + 1) argPointer (currentStr + 1)
      else [.writeProcessed currentStr 0]

/-- A pass over the copy `body` of the two arrays. -/
def serverAccesses (sprintf : Sprintf) (endian : Endian) (body : Nat → Byte) : List HostAccess :=
  serverLoop sprintf endian body (MAX_NUM_CHARACTERS + 1) 0 ARGUMENTS 0

def HostAccess.processed : HostAccess → Option (Nat × Byte)
  | .writeProcessed i c => some (i, c)
  | _ => none

def HostAccess.argument : HostAccess → Option Nat
  | .readArgument i => some i
  | _ => none

def HostAccess.myChar : HostAccess → Option Nat
  | .writeMyChar i => some i
  | _ => none

def HostAccess.head : HostAccess → Option Nat
  | .readHead i => some i
  | _ => none

/-- The characters of a piece. -/
def Piece.chars (sprintf : Sprintf) : Piece → List Byte
  | .text c => [c]
  | .param letter value => formatted sprintf letter value

def printed (sprintf : Sprintf) (pieces : List Piece) : List Byte := pieces.flatMap (Piece.chars sprintf)

@[simp] theorem printed_cons (sprintf : Sprintf) (piece : Piece) (pieces : List Piece) :
    printed sprintf (piece :: pieces) = piece.chars sprintf ++ printed sprintf pieces := List.flatMap_cons

/-- The bytes of the values read. -/
def bytesRead (pieces : List Piece) : Nat := ((valuesRead pieces).map fun v => (v.map fun v => v.type.size).getD 0).sum

theorem bytesRead_param (letter : Byte) (value : Option Value) (pieces : List Piece) :
    bytesRead (.param letter value :: pieces) = (value.map fun v => v.type.size).getD 0 + bytesRead pieces := by
  simp only [bytesRead, valuesRead, List.filterMap_cons, List.map_cons, List.sum_cons]

theorem written_processed (k : Nat) (text : List Byte) :
    (written k text).filterMap HostAccess.processed = (text.zipIdx k).map Prod.swap := by
  rw [written, List.filterMap_map, ← List.filterMap_eq_map]
  rfl

/-- Nothing but writes to `processedBuffer`. -/
theorem written_none {α : Type} {f : HostAccess → Option α} (hf : ∀ i c, f (.writeProcessed i c) = none) (k : Nat)
    (text : List Byte) : (written k text).filterMap f = [] := by
  rw [written, List.filterMap_map, List.filterMap_eq_nil_iff]
  intro x _
  exact hf x.2 x.1

theorem argumentReads_none {α : Type} {f : HostAccess → Option α} (hf : ∀ i, f (.readArgument i) = none)
    (argument : Nat) (value : Option Value) : (argumentReads argument value).filterMap f = [] := by
  cases value with
  | none => rfl
  | some v =>
    rw [argumentReads, List.filterMap_map, List.filterMap_eq_nil_iff]
    intro i _
    exact hf i

theorem argumentReads_argument (argument : Nat) (value : Option Value) :
    (argumentReads argument value).filterMap HostAccess.argument =
      List.range' argument ((value.map fun v => v.type.size).getD 0) := by
  cases value with
  | none => rfl
  | some v =>
    rw [argumentReads, List.filterMap_map]
    exact List.filterMap_some

/-- The host's `argument` moves by the size of what it read. -/
theorem transformParameter_moves (endian : Endian) (letter : Byte) (m : Nat → Byte) (p : Nat) :
    (TRANSFORM_PARAMETER endian letter m p).2 =
      p + ((TRANSFORM_PARAMETER endian letter m p).1.map fun v => v.type.size).getD 0 := by
  unfold TRANSFORM_PARAMETER
  split_ifs <;> rfl

variable {sprintf : Sprintf} {endian : Endian} {body : Nat → Byte}

/-- The accesses to the other three arrays, from the pieces. -/
def placed (sprintf : Sprintf) : List Piece → Nat → Nat → List HostAccess
  | [], _, currentStr => [.writeProcessed currentStr 0]
  | .text c :: pieces, argument, currentStr =>
    .writeProcessed currentStr c :: placed sprintf pieces argument (currentStr + 1)
  | .param letter value :: pieces, argument, currentStr =>
    [0, 1, 3].map .writeMyChar ++ argumentReads argument value ++ written currentStr (formatted sprintf letter value) ++
      placed sprintf pieces (argument + (value.map fun v => v.type.size).getD 0)
        (currentStr + (formatted sprintf letter value).length)

/-- But for the tests and the letters, a pass does what its pieces say. -/
theorem serverLoop_placed {α : Type} {f : HostAccess → Option α} (hf : ∀ i, f (.readHead i) = none) :
    ∀ (fuel charCount argument currentStr : Nat), MAX_NUM_CHARACTERS ≤ charCount + fuel →
      (serverLoop sprintf endian body (fuel + 1) charCount (ARGUMENTS + argument) currentStr).filterMap f =
        (placed sprintf (process endian body fuel charCount (ARGUMENTS + argument)) argument currentStr).filterMap f := by
  intro fuel
  induction fuel with
  | zero =>
    intro charCount argument currentStr h
    have hend : ¬ (body charCount ≠ 0 ∧ charCount < MAX_NUM_CHARACTERS) := fun hc => absurd hc.2 (by omega)
    rw [serverLoop, if_neg hend, List.filterMap_cons_none (hf _)]
    rfl
  | succ fuel ih =>
    intro charCount argument currentStr h
    rw [serverLoop, process, List.filterMap_cons_none (hf _)]
    by_cases hc : body charCount ≠ 0 ∧ charCount < MAX_NUM_CHARACTERS
    · rw [if_pos hc, if_pos hc]
      by_cases hp : body charCount = chr '%'
      · have hmove := transformParameter_moves endian (body (charCount + 1)) body (ARGUMENTS + argument)
        have hchar : (myCharAccesses (charCount + 1)).filterMap f = ([0, 1, 3].map .writeMyChar).filterMap f := by
          rw [myCharAccesses, List.map_cons, List.filterMap_cons, List.filterMap_cons_none (hf _), List.filterMap_cons]
          rfl
        simp only [if_pos hp, placed, List.filterMap_append, hchar, hmove, Nat.add_sub_cancel_left]
        rw [Nat.add_assoc, ih _ _ _ (by omega)]
      · simp only [if_neg hp, placed, List.filterMap_cons]
        rw [ih _ _ _ (by omega)]
    · rw [if_neg hc, if_neg hc]
      rfl

/-- The writes to `processedBuffer` are the pieces' characters and a 0, one after another. -/
theorem placed_processed (pieces : List Piece) : ∀ argument currentStr : Nat,
    (placed sprintf pieces argument currentStr).filterMap HostAccess.processed =
      ((printed sprintf pieces ++ [0]).zipIdx currentStr).map Prod.swap := by
  induction pieces with
  | nil => intro argument currentStr; rfl
  | cons piece pieces ih =>
    intro argument currentStr
    cases piece with
    | text c =>
      rw [placed, List.filterMap_cons_some (f := HostAccess.processed) rfl, ih]
      rfl
    | param letter value =>
      have hchar : ([0, 1, 3].map .writeMyChar).filterMap HostAccess.processed = [] := rfl
      rw [placed, List.filterMap_append, List.filterMap_append, List.filterMap_append, hchar,
        argumentReads_none (f := HostAccess.processed) fun _ => rfl, written_processed, ih, List.nil_append,
        List.nil_append, ← List.map_append, ← List.zipIdx_append, printed_cons, Piece.chars, List.append_assoc]

theorem placed_argument (pieces : List Piece) : ∀ argument currentStr : Nat,
    (placed sprintf pieces argument currentStr).filterMap HostAccess.argument =
      List.range' argument (bytesRead pieces) := by
  induction pieces with
  | nil => intro argument currentStr; rfl
  | cons piece pieces ih =>
    intro argument currentStr
    cases piece with
    | text c =>
      rw [placed, List.filterMap_cons_none rfl, ih]
      rfl
    | param letter value =>
      have hchar : ([0, 1, 3].map .writeMyChar).filterMap HostAccess.argument = [] := rfl
      rw [placed, List.filterMap_append, List.filterMap_append, List.filterMap_append, hchar, argumentReads_argument,
        written_none (f := HostAccess.argument) fun _ _ => rfl, ih, List.append_nil, List.nil_append,
        List.range'_append_1, bytesRead_param]

/-- The writes to `myChar`: three for each letter. -/
theorem placed_myChar (pieces : List Piece) : ∀ argument currentStr : Nat,
    (placed sprintf pieces argument currentStr).filterMap HostAccess.myChar =
      (valuesRead pieces).flatMap fun _ => [0, 1, 3] := by
  induction pieces with
  | nil => intro argument currentStr; rfl
  | cons piece pieces ih =>
    intro argument currentStr
    cases piece with
    | text c =>
      rw [placed, List.filterMap_cons_none rfl, ih]
      rfl
    | param letter value =>
      have hchar : ([0, 1, 3].map .writeMyChar).filterMap HostAccess.myChar = [0, 1, 3] := rfl
      rw [placed, List.filterMap_append, List.filterMap_append, List.filterMap_append, hchar,
        argumentReads_none (f := HostAccess.myChar) fun _ => rfl, written_none (f := HostAccess.myChar) fun _ _ => rfl,
        ih, List.append_nil, List.append_nil]
      rfl

/-! ## The message -/

/-- A message of `len` characters and its 0. -/
structure Message (body : Nat → Byte) (len : Nat) : Prop where
  short : len ≤ 199
  ends : body len = 0
  text : ∀ i < len, body i ≠ 0

/-- What `e_darts_print` leaves, whatever it is called with. -/
theorem message_left {call : Call} {b b' : PrintBuffer} (h : eDartsPrint call b = some b') :
    Message b'.body call.text.length := by
  unfold eDartsPrint at h
  split at h
  · cases h
  · obtain rfl := Option.some.inj h
    have hset := settled_applyStores b.body call.stores
    refine ⟨call.text_length, ?_, fun i hi => ?_⟩
    · show applyStores b.body call.stores call.text.length = 0
      rw [text_settled hset (Nat.le_refl _), List.getD_eq_default _ _ (Nat.le_refl _)]
    · show applyStores b.body call.stores i ≠ 0
      rw [text_settled hset (Nat.le_of_lt hi), List.getD_eq_getElem _ _ hi]
      have hmem : call.text[i] ∈ call.message.takeWhile (· ≠ 0) := List.mem_of_mem_take (List.getElem_mem hi)
      simpa using List.mem_takeWhile_imp hmem

/-- No `%` stands last, where a letter should follow. -/
def lettersPaired : List Byte → Bool
  | [] => true
  | [c] => c ≠ chr '%'
  | c :: letter :: message => if c = chr '%' then lettersPaired message else lettersPaired (letter :: message)

theorem lettersPaired_text {c : Byte} (hc : c ≠ chr '%') (message : List Byte) :
    lettersPaired (c :: message) = lettersPaired message := by
  cases message with
  | nil => simp [lettersPaired, hc]
  | cons letter message => rw [lettersPaired, if_neg hc]

theorem lettersPaired_plain : ∀ {message : List Byte}, (∀ c ∈ message, c ≠ chr '%') → lettersPaired message = true := by
  intro message
  induction message with
  | nil => intro _; rfl
  | cons c message ih =>
    intro h
    obtain ⟨hc, h⟩ := List.forall_mem_cons.mp h
    rw [lettersPaired_text hc, ih h]

variable {len : Nat}

/-- The message from `charCount` on. -/
theorem Message.rest (h : Message body len) (charCount : Nat) (hlt : charCount < len) :
    (body charCount ≠ 0 ∧ charCount < MAX_NUM_CHARACTERS) ∧
      cells body charCount (len - charCount) =
        body charCount :: cells body (charCount + 1) (len - (charCount + 1)) := by
  have hshort := h.short
  refine ⟨⟨h.text charCount hlt, by unfold MAX_NUM_CHARACTERS; omega⟩, ?_⟩
  rw [← cells_succ]
  congr 1
  omega

theorem Message.over (h : Message body len) : ¬ (body len ≠ 0 ∧ len < MAX_NUM_CHARACTERS) := fun hc => hc.1 h.ends

/-- Without a `%`, every piece is a character of the message. -/
theorem process_plain (endian : Endian) (h : Message body len) : ∀ (fuel charCount argPointer : Nat),
    charCount ≤ len → len ≤ charCount + fuel → (∀ i < len, charCount ≤ i → body i ≠ chr '%') →
    process endian body fuel charCount argPointer = (cells body charCount (len - charCount)).map .text := by
  intro fuel
  induction fuel with
  | zero =>
    intro charCount argPointer hle hfuel hno
    obtain rfl : charCount = len := by omega
    rw [Nat.sub_self]
    rfl
  | succ fuel ih =>
    intro charCount argPointer hle hfuel hno
    rcases Nat.eq_or_lt_of_le hle with rfl | hlt
    · rw [process, if_neg h.over, Nat.sub_self]
      rfl
    · obtain ⟨hc, hcells⟩ := h.rest charCount hlt
      rw [process, if_pos hc, if_neg (hno charCount hlt (Nat.le_refl _)), hcells, List.map_cons,
        ih _ _ hlt (by omega) fun i hi hge => hno i hi (by omega)]

/-- A `%` is a conversion, or the letter of one. -/
theorem process_param (endian : Endian) (h : Message body len) {i : Nat} (hi : i < len) (hp : body i = chr '%') :
    ∀ (fuel charCount argPointer : Nat), charCount ≤ i → len ≤ charCount + fuel →
      valuesRead (process endian body fuel charCount argPointer) ≠ [] := by
  intro fuel
  induction fuel with
  | zero => intro charCount argPointer hle hfuel; omega
  | succ fuel ih =>
    intro charCount argPointer hle hfuel
    obtain ⟨hc, -⟩ := h.rest charCount (by omega)
    rw [process, if_pos hc]
    by_cases hpc : body charCount = chr '%'
    · rw [if_pos hpc]
      exact List.cons_ne_nil _ _
    · have hne : charCount ≠ i := fun e => hpc (e ▸ hp)
      rw [if_neg hpc]
      exact ih _ _ (by omega) (by omega)

/-! ## Inside the arrays -/

/-- The pieces of a pass. -/
def pieces (endian : Endian) (body : Nat → Byte) : List Piece := process endian body MAX_NUM_CHARACTERS 0 ARGUMENTS

/-- What the server prints is these. -/
theorem printingServer_pieces (endian : Endian) {b : PrintBuffer} (h : b.sendPrintInstruction = 1) :
    printingServer endian b = some (pieces endian b.body) := if_pos h

theorem serverAccesses_placed {α : Type} {f : HostAccess → Option α} (hf : ∀ i, f (.readHead i) = none) :
    (serverAccesses sprintf endian body).filterMap f = (placed sprintf (pieces endian body) 0 0).filterMap f :=
  serverLoop_placed hf MAX_NUM_CHARACTERS 0 0 0 (by omega)

/-- The accesses of one kind, by their index. -/
theorem mem_filterMap_iff {α : Type} {f : HostAccess → Option α} {a : HostAccess} {x : α} (hx : f a = some x)
    (hf : ∀ b, f b = some x → b = a) (l : List HostAccess) : x ∈ l.filterMap f ↔ a ∈ l := by
  rw [List.mem_filterMap]
  constructor
  · intro h
    obtain ⟨b, hb, he⟩ := h
    exact hf b he ▸ hb
  · intro h
    exact ⟨a, h, hx⟩

theorem mem_processed (i : Nat) (c : Byte) (l : List HostAccess) :
    (i, c) ∈ l.filterMap HostAccess.processed ↔ .writeProcessed i c ∈ l := by
  refine mem_filterMap_iff (f := HostAccess.processed) rfl (fun b hb => ?_) l
  cases b <;> cases hb
  rfl

theorem mem_argument (i : Nat) (l : List HostAccess) : i ∈ l.filterMap HostAccess.argument ↔ .readArgument i ∈ l := by
  refine mem_filterMap_iff (f := HostAccess.argument) rfl (fun b hb => ?_) l
  cases b <;> cases hb
  rfl

theorem mem_myChar (i : Nat) (l : List HostAccess) : i ∈ l.filterMap HostAccess.myChar ↔ .writeMyChar i ∈ l := by
  refine mem_filterMap_iff (f := HostAccess.myChar) rfl (fun b hb => ?_) l
  cases b <;> cases hb
  rfl

theorem mem_head (i : Nat) (l : List HostAccess) : i ∈ l.filterMap HostAccess.head ↔ .readHead i ∈ l := by
  refine mem_filterMap_iff (f := HostAccess.head) rfl (fun b hb => ?_) l
  cases b <;> cases hb
  rfl

/-- `processedBuffer` gets the printed characters and a 0. -/
theorem processed_writes (sprintf : Sprintf) (endian : Endian) (body : Nat → Byte) (i : Nat) (c : Byte) :
    .writeProcessed i c ∈ serverAccesses sprintf endian body ↔
      (printed sprintf (pieces endian body) ++ [0])[i]? = some c := by
  rw [← mem_processed, serverAccesses_placed (f := HostAccess.processed) fun _ => rfl, placed_processed, List.mem_map]
  constructor
  · intro h
    obtain ⟨x, hx, he⟩ := h
    cases he
    exact List.mem_zipIdx_iff_getElem?.mp hx
  · intro h
    exact ⟨(c, i), List.mem_zipIdx_iff_getElem?.mpr h, rfl⟩

/-- `arguments` is read from its start on, as far as the values go. -/
theorem argument_reads (sprintf : Sprintf) (endian : Endian) (body : Nat → Byte) (i : Nat) :
    .readArgument i ∈ serverAccesses sprintf endian body ↔ i < bytesRead (pieces endian body) := by
  rw [← mem_argument, serverAccesses_placed (f := HostAccess.argument) fun _ => rfl, placed_argument, List.mem_range'_1]
  omega

theorem myChar_writes (sprintf : Sprintf) (endian : Endian) (body : Nat → Byte) (i : Nat) :
    .writeMyChar i ∈ serverAccesses sprintf endian body ↔ valuesRead (pieces endian body) ≠ [] ∧ i ∈ [0, 1, 3] := by
  rw [← mem_myChar, serverAccesses_placed (f := HostAccess.myChar) fun _ => rfl, placed_myChar, List.mem_flatMap]
  constructor
  · intro h
    obtain ⟨v, hv, hi⟩ := h
    exact ⟨List.ne_nil_of_mem hv, hi⟩
  · intro h
    obtain ⟨hne, hi⟩ := h
    obtain ⟨v, hv⟩ := List.exists_mem_of_ne_nil _ hne
    exact ⟨v, hv, hi⟩

theorem processed_inside_iff (sprintf : Sprintf) (endian : Endian) (body : Nat → Byte) :
    (∀ i c, .writeProcessed i c ∈ serverAccesses sprintf endian body → i < 2 * MAX_NUM_CHARACTERS) ↔
      (printed sprintf (pieces endian body)).length < 2 * MAX_NUM_CHARACTERS := by
  constructor
  · intro h
    refine h _ 0 ((processed_writes _ _ _ _ _).mpr ?_)
    simp
  · intro h i c hi
    obtain ⟨hlt, -⟩ := List.getElem?_eq_some_iff.mp ((processed_writes _ _ _ i c).mp hi)
    rw [List.length_append, List.length_singleton] at hlt
    omega

theorem arguments_inside_iff (sprintf : Sprintf) (endian : Endian) (body : Nat → Byte) :
    (∀ i, .readArgument i ∈ serverAccesses sprintf endian body → i < ARGUMENTS_SIZE) ↔
      bytesRead (pieces endian body) ≤ ARGUMENTS_SIZE := by
  simp only [argument_reads]
  constructor
  · intro h
    by_contra hgt
    exact Nat.lt_irrefl _ (h ARGUMENTS_SIZE (by omega))
  · intro h i hi
    omega

/-- Every `%` makes the write to `myChar[3]`. -/
theorem myChar_inside_iff (sprintf : Sprintf) (endian : Endian) (h : Message body len) :
    (∀ i, .writeMyChar i ∈ serverAccesses sprintf endian body → i < 3) ↔ ∀ i < len, body i ≠ chr '%' := by
  have hshort := h.short
  simp only [myChar_writes]
  constructor
  · intro hin i hi hp
    have hne := process_param endian h hi hp MAX_NUM_CHARACTERS 0 ARGUMENTS (Nat.zero_le _)
      (by unfold MAX_NUM_CHARACTERS; omega)
    exact absurd (hin 3 ⟨hne, by decide⟩) (by decide)
  · intro hno i hi
    have hplain := process_plain endian h MAX_NUM_CHARACTERS 0 ARGUMENTS (Nat.zero_le _)
      (by unfold MAX_NUM_CHARACTERS; omega) fun i hi _ => hno i hi
    refine absurd ?_ hi.1
    rw [pieces, hplain]
    simp [valuesRead]

/-- The tests from `charCount` on, and the letters, are inside the message. -/
theorem serverLoop_head (sprintf : Sprintf) (endian : Endian) (h : Message body len) :
    ∀ (fuel charCount argPointer currentStr : Nat), charCount ≤ len → len + 1 ≤ charCount + fuel →
      ((∀ i ∈ (serverLoop sprintf endian body (fuel + 1) charCount argPointer currentStr).filterMap HostAccess.head,
          i ≤ len) ↔
        lettersPaired (cells body charCount (len - charCount)) = true) := by
  intro fuel
  induction fuel with
  | zero => intro charCount argPointer currentStr hle hfuel; omega
  | succ fuel ih =>
    intro charCount argPointer currentStr hle hfuel
    rcases Nat.eq_or_lt_of_le hle with rfl | hlt
    · rw [serverLoop, if_neg h.over, Nat.sub_self]
      simp [HostAccess.head, cells, lettersPaired]
    · obtain ⟨hc, hcells⟩ := h.rest charCount hlt
      rw [serverLoop, if_pos hc, hcells]
      by_cases hp : body charCount = chr '%'
      · simp only [if_pos hp, myCharAccesses, List.filterMap_cons, HostAccess.head, List.filterMap_append,
          List.nil_append, written_none (f := HostAccess.head) fun _ _ => rfl,
          argumentReads_none (f := HostAccess.head) fun _ => rfl, List.append_nil, List.cons_append,
          List.forall_mem_cons]
        rcases Nat.eq_or_lt_of_le hlt with hlast | hmore
        · -- the letter is the message's 0, and the next test is behind it
          have hend : cells body (charCount + 1) (len - (charCount + 1)) = [] := by
            rw [← hlast, Nat.sub_self]
            rfl
          have hover : ¬ charCount + 2 ≤ len := by omega
          rw [hend, serverLoop]
          simp [HostAccess.head, lettersPaired, hp, hover]
        · obtain ⟨-, hletter⟩ := h.rest (charCount + 1) hmore
          have hin : charCount + 1 ≤ len := hlt
          rw [hletter, lettersPaired, if_pos hp, ih _ _ _ (by omega) (by omega)]
          simp only [hle, hin, true_and]
      · simp only [if_neg hp, List.filterMap_cons, HostAccess.head, List.forall_mem_cons]
        rw [lettersPaired_text hp, ih _ _ _ (by omega) (by omega)]
        simp only [hle, true_and]

/-- Only a `%` that stands last makes the pass read behind the message. -/
theorem head_inside_iff (sprintf : Sprintf) (endian : Endian) (h : Message body len) :
    (∀ i, .readHead i ∈ serverAccesses sprintf endian body → i ≤ len) ↔ lettersPaired (cells body 0 len) = true := by
  have hshort := h.short
  have hiff := serverLoop_head sprintf endian h MAX_NUM_CHARACTERS 0 ARGUMENTS 0 (Nat.zero_le _)
    (by unfold MAX_NUM_CHARACTERS; omega)
  simp only [mem_head] at hiff
  exact hiff

/-- One pass stays inside what it reads and writes. -/
structure ServerInside (len : Nat) (accesses : List HostAccess) : Prop where
  head : ∀ i, .readHead i ∈ accesses → i ≤ len
  argument : ∀ i, .readArgument i ∈ accesses → i < ARGUMENTS_SIZE
  processed : ∀ i c, .writeProcessed i c ∈ accesses → i < 2 * MAX_NUM_CHARACTERS
  myChar : ∀ i, .writeMyChar i ∈ accesses → i < 3

/-- A pass over a message stays inside exactly when the message has no `%`. -/
theorem server_inside_iff (sprintf : Sprintf) (endian : Endian) (body : Nat → Byte) (len : Nat) (h : Message body len) :
    ServerInside len (serverAccesses sprintf endian body) ↔ ∀ i < len, body i ≠ chr '%' := by
  constructor
  · intro hin
    exact (myChar_inside_iff sprintf endian h).mp hin.myChar
  · intro hno
    have hshort := h.short
    have hplain : pieces endian body = (cells body 0 len).map .text :=
      process_plain endian h MAX_NUM_CHARACTERS 0 ARGUMENTS (Nat.zero_le _) (by unfold MAX_NUM_CHARACTERS; omega)
        fun i hi _ => hno i hi
    refine ⟨(head_inside_iff sprintf endian h).mpr ?_, (arguments_inside_iff sprintf endian body).mpr ?_,
      (processed_inside_iff sprintf endian body).mpr ?_, (myChar_inside_iff sprintf endian h).mpr hno⟩
    · apply lettersPaired_plain
      intro c hc
      obtain ⟨i, hi, rfl⟩ := List.mem_map.mp hc
      rw [Nat.zero_add]
      exact hno i (List.mem_range.mp hi)
    · rw [hplain]
      simp [bytesRead, valuesRead]
    · rw [hplain, printed, List.flatMap_map]
      have hlen : ((cells body 0 len).flatMap fun c => Piece.chars sprintf (.text c)).length = len := by
        rw [List.length_flatMap]
        simp [Piece.chars]
      rw [hlen]
      unfold MAX_NUM_CHARACTERS
      omega

/-- A message without conversions. -/
theorem server_inside_iff_hello :
    ServerInside 2 (serverAccesses (fun _ _ => [chr '0']) .little fun i => [chr 'H', chr 'i'].getD i 0) :=
  (server_inside_iff (fun _ _ => [chr '0']) .little (fun i => [chr 'H', chr 'i'].getD i 0) 2
    ⟨by decide, rfl, by decide⟩).mpr (by decide)

/-- What `sprintf` stores for integers and characters; nothing is said of doubles. -/
structure SprintfBound (sprintf : Sprintf) : Prop where
  integer : ∀ letter (v : Value), v.type = .int ∨ v.type = .unsigned → (sprintf letter v).length ≤ 11
  char : ∀ letter (v : Value), v.type = .char → (sprintf letter v).length ≤ 1

/-- `e_darts_print("%d", 0)`, the shortest call that prints a number. -/
def numberCall : Call := ⟨[chr '%', chr 'd'], fun _ => 0, fun _ => 0⟩

theorem a_conversion_writes_past_myChar :
    ¬ ∀ (sprintf : Sprintf) (endian : Endian) (call : Call) (b b' : PrintBuffer), SprintfBound sprintf →
      eDartsPrint call b = some b' → ServerInside call.text.length (serverAccesses sprintf endian b'.body) := by
  intro hall
  have hbound : SprintfBound fun _ _ => [chr '0'] := ⟨fun _ _ _ => by decide, fun _ _ _ => by decide⟩
  have hcall : eDartsPrint numberCall ⟨0, 0, fun _ => 0⟩ =
      some ⟨1, 0, applyStores (fun _ => 0) numberCall.stores⟩ := rfl
  have hin := hall _ .little _ _ _ hbound hcall
  exact (myChar_inside_iff _ .little (message_left hcall)).mp hin.myChar 0 (by decide) (by decide)

/-! ## What the conversions add -/

theorem formatted_length (B : SprintfBound sprintf) (letter : Byte) (value : Option Value)
    (hv : ∀ v, value = some v → v.type ≠ .double) : (formatted sprintf letter value).length ≤ 11 := by
  cases value with
  | none => exact Nat.zero_le _
  | some v =>
    refine Nat.le_trans ((List.takeWhile_prefix _).length_le) ?_
    cases ht : v.type with
    | int => exact B.integer letter v (.inl ht)
    | unsigned => exact B.integer letter v (.inr ht)
    | char => exact Nat.le_trans (B.char letter v ht) (by decide)
    | double => exact absurd ht (hv v rfl)

/-- A conversion takes two characters of the message and prints 11 at most. -/
theorem printed_length_le (B : SprintfBound sprintf) (h : Message body len) : ∀ (fuel charCount argPointer : Nat),
    charCount ≤ len → len ≤ charCount + fuel → lettersPaired (cells body charCount (len - charCount)) = true →
    (∀ v, some v ∈ valuesRead (process endian body fuel charCount argPointer) → v.type ≠ .double) →
    (printed sprintf (process endian body fuel charCount argPointer)).length + charCount ≤
      len + 9 * (valuesRead (process endian body fuel charCount argPointer)).length := by
  intro fuel
  induction fuel with
  | zero =>
    intro charCount argPointer hle hfuel _ _
    simp only [process, printed, List.flatMap_nil, List.length_nil]
    omega
  | succ fuel ih =>
    intro charCount argPointer hle hfuel hpaired hv
    rcases Nat.eq_or_lt_of_le hle with rfl | hlt
    · rw [process, if_neg h.over]
      simp only [printed, List.flatMap_nil, List.length_nil]
      omega
    · obtain ⟨hc, hcells⟩ := h.rest charCount hlt
      rw [hcells] at hpaired
      rw [process, if_pos hc] at hv ⊢
      by_cases hp : body charCount = chr '%'
      · have hmore : charCount + 1 < len := by
          by_contra hlast
          have hend : len - (charCount + 1) = 0 := by omega
          rw [hend, hp] at hpaired
          cases hpaired
        obtain ⟨-, hletter⟩ := h.rest (charCount + 1) hmore
        rw [hletter, lettersPaired, if_pos hp] at hpaired
        simp only [if_pos hp] at hv ⊢
        have hrest := ih (charCount + 2) _ (by omega) (by omega) hpaired fun v hm => hv v (List.mem_cons_of_mem _ hm)
        have hone := formatted_length B (body (charCount + 1))
          (TRANSFORM_PARAMETER endian (body (charCount + 1)) body argPointer).1
          fun v he => hv v (he ▸ List.mem_cons_self)
        simp only [printed_cons, Piece.chars, List.length_append, valuesRead, List.filterMap_cons,
          List.length_cons] at hrest ⊢
        omega
      · rw [lettersPaired_text hp] at hpaired
        rw [if_neg hp] at hv ⊢
        have hrest := ih (charCount + 1) argPointer (by omega) (by omega) hpaired hv
        simp only [printed_cons, Piece.chars, List.length_append, List.length_singleton, valuesRead,
          List.filterMap_cons] at hrest ⊢
        omega

/-- With 22 conversions, none of a double and none without its letter, `processedBuffer`
    is long enough. -/
theorem processed_inside_of_few (B : SprintfBound sprintf) (endian : Endian) (h : Message body len)
    (hpaired : lettersPaired (cells body 0 len) = true)
    (hv : ∀ v, some v ∈ valuesRead (pieces endian body) → v.type ≠ .double)
    (hfew : (valuesRead (pieces endian body)).length ≤ 22) {i : Nat} {c : Byte}
    (hi : .writeProcessed i c ∈ serverAccesses sprintf endian body) : i < 2 * MAX_NUM_CHARACTERS := by
  refine (processed_inside_iff sprintf endian body).mpr ?_ i c hi
  have hshort := h.short
  have hlen := printed_length_le B h MAX_NUM_CHARACTERS 0 ARGUMENTS (Nat.zero_le _)
    (by unfold MAX_NUM_CHARACTERS; omega) hpaired hv
  rw [← pieces] at hlen
  unfold MAX_NUM_CHARACTERS
  omega

/-- 23 integers of 11 characters in a message of 199. -/
example : (printed (fun _ _ => List.replicate 11 (chr '1')) (pieces .little fun i =>
    ((List.replicate 23 [chr '%', chr 'd']).flatten ++ List.replicate 153 (chr '.')).getD i 0)).length = 406 := by
  decide +kernel

end EDarts.Runtime.Print
