/-
  EDarts.Runtime.PrintBounds — where `e_darts_print` reads and writes (see
  `EDarts.Runtime.Print`).

  `Call.accesses` are the accesses of one call to `argTypes`, `printingBufferHead` and
  `arguments`, in order; `accesses_stores` and `accesses_argTypes` tie them to the stores
  and to the letters recorded. A byte of `argTypes` is read several times in one round of
  the loop; that is one access.

  - `never_inside`: no call stays inside. Its first read of `argTypes` is at the number of
    letters recorded, one past the last; with 20 letters that is past the array, too
    (`reads_inside_iff`).
  - `reads_written`: every other read is of a letter recorded before.
  - `arguments_below`: the last argument's copy passes the end of `arguments` by up to 7
    bytes. With 20 doubles it does: `twenty_doubles_run_over`.
  - `head_inside`, `stored_message`: the message is stored inside, and truncated right.
-/

import EDarts.Runtime.PrintHandshakeProofs

namespace EDarts.Runtime.Print

open Lib

inductive Access where
  | readType (i : Nat)
  | writeType (i : Nat) (letter : Byte)
  | writeHead (i : Nat) (c : Byte)
  | writeArgument (i : Nat) (b : Byte)
  deriving DecidableEq, Repr

/-! ## The accesses of a call -/

/-- The loop over the message. -/
def copyMessageAccesses : List Byte → Nat → Nat → List Access
  | [], _, _ => []
  | c :: message, charCount, argCount =>
    if c ≠ 0 ∧ charCount < MAX_NUM_CHARACTERS then
      if c = chr '%' ∧ argCount < MAX_NUM_ARGUMENTS then
        .writeType argCount (message.headD 0) :: .writeHead charCount c ::
          copyMessageAccesses message (charCount + 1) (argCount + 1)
      else .writeHead charCount c :: copyMessageAccesses message (charCount + 1) argCount
    else []

/-- The stores for one letter. -/
def copyArgumentAccesses (letter : Byte) (argStart : Nat → Byte) (charCount : Nat) : List Access :=
  if letter = chr 's' ∨ letter = chr 'S' then [.writeArgument charCount 0]
  else (List.range (TYPE_SELECTOR letter)).map fun i => .writeArgument (charCount + i) (argStart (charCount + i))

/-- The loop over the letters, from `argCount - 1` down. -/
def copyArgumentsAccesses (argTypes argStart : Nat → Byte) : Nat → Nat → List Access
  | 0, _ => []
  | argCount + 1, charCount =>
    if charCount < ARGUMENTS_SIZE then
      let stores := copyArgumentAccesses (argTypes argCount) argStart charCount
      .readType argCount :: stores ++ copyArgumentsAccesses argTypes argStart argCount (charCount + stores.length)
    else []

/-- What the loop over the message leaves. -/
def Call.copied (call : Call) : Copied := copyMessage call.message 0 0 call.argTypes

def Call.accesses (call : Call) : List Access :=
  copyMessageAccesses call.message 0 0 ++
    .writeHead (endMessage call.copied.charCount).1 (endMessage call.copied.charCount).2 ::
    copyArgumentsAccesses call.copied.argTypes call.argStart (call.copied.argCount + 1) 0

/-- The cell of the body that an access stores to. -/
def Access.store : Access → Option (Nat × Byte)
  | .writeHead i c => some (i, c)
  | .writeArgument i b => some (ARGUMENTS + i, b)
  | _ => none

def Access.type : Access → Option (Nat × Byte)
  | .writeType i letter => some (i, letter)
  | _ => none

theorem copyMessageAccesses_store : ∀ (message : List Byte) (charCount argCount : Nat) (argTypes : Nat → Byte),
    (copyMessageAccesses message charCount argCount).filterMap Access.store =
      (copyMessage message charCount argCount argTypes).stores := by
  intro message
  induction message with
  | nil => intro charCount argCount argTypes; rfl
  | cons c message ih =>
    intro charCount argCount argTypes
    unfold copyMessageAccesses copyMessage
    by_cases hc : c ≠ 0 ∧ charCount < MAX_NUM_CHARACTERS
    · by_cases hp : c = chr '%' ∧ argCount < MAX_NUM_ARGUMENTS
      · simp only [if_pos hc, if_pos hp, List.filterMap_cons, Access.store]
        rw [ih]
      · simp only [if_pos hc, if_neg hp, List.filterMap_cons, Access.store]
        rw [ih]
    · simp only [if_neg hc, List.filterMap_nil]

theorem copyArgumentAccesses_store (letter : Byte) (argStart : Nat → Byte) (charCount : Nat) :
    (copyArgumentAccesses letter argStart charCount).filterMap Access.store = copyArgument letter argStart charCount := by
  unfold copyArgumentAccesses copyArgument
  by_cases hs : letter = chr 's' ∨ letter = chr 'S'
  · simp only [if_pos hs, List.filterMap_cons, Access.store, List.filterMap_nil]
  · simp only [if_neg hs, List.filterMap_map]
    exact List.filterMap_eq_map ▸ rfl

theorem copyArgumentAccesses_length (letter : Byte) (argStart : Nat → Byte) (charCount : Nat) :
    (copyArgumentAccesses letter argStart charCount).length = (copyArgument letter argStart charCount).length := by
  unfold copyArgumentAccesses copyArgument
  by_cases hs : letter = chr 's' ∨ letter = chr 'S'
  · simp only [if_pos hs, List.length_cons, List.length_nil]
  · simp only [if_neg hs, List.length_map]

theorem copyArgumentsAccesses_store (argTypes argStart : Nat → Byte) : ∀ (k charCount : Nat),
    (copyArgumentsAccesses argTypes argStart k charCount).filterMap Access.store =
      copyArguments argTypes argStart k charCount := by
  intro k
  induction k with
  | zero => intro charCount; rfl
  | succ k ih =>
    intro charCount
    unfold copyArgumentsAccesses copyArguments
    by_cases hc : charCount < ARGUMENTS_SIZE
    · simp only [if_pos hc, List.cons_append, List.filterMap_cons, Access.store, List.filterMap_append,
        copyArgumentAccesses_store, copyArgumentAccesses_length]
      rw [ih]
    · simp only [if_neg hc, List.filterMap_nil]

/-- The writes to the two arrays of the structure are the call's stores. -/
theorem accesses_stores (call : Call) : call.accesses.filterMap Access.store = call.stores := by
  simp only [Call.accesses, Call.stores, List.filterMap_append, List.filterMap_cons, Access.store, List.append_assoc,
    List.singleton_append]
  rw [copyMessageAccesses_store _ _ _ call.argTypes, copyArgumentsAccesses_store]
  rfl

theorem copyMessageAccesses_type : ∀ (message : List Byte) (charCount argCount : Nat) (argTypes : Nat → Byte),
    applyStores argTypes ((copyMessageAccesses message charCount argCount).filterMap Access.type) =
      (copyMessage message charCount argCount argTypes).argTypes := by
  intro message
  induction message with
  | nil => intro charCount argCount argTypes; rfl
  | cons c message ih =>
    intro charCount argCount argTypes
    unfold copyMessageAccesses copyMessage
    by_cases hc : c ≠ 0 ∧ charCount < MAX_NUM_CHARACTERS
    · by_cases hp : c = chr '%' ∧ argCount < MAX_NUM_ARGUMENTS
      · simp only [if_pos hc, if_pos hp, List.filterMap_cons, Access.type, applyStores_cons]
        rw [ih]
      · simp only [if_pos hc, if_neg hp, List.filterMap_cons, Access.type]
        rw [ih]
    · simp only [if_neg hc, List.filterMap_nil]
      rfl

/-- The loop over the letters writes none of them. -/
theorem copyArgumentsAccesses_type (argTypes argStart : Nat → Byte) : ∀ (k charCount : Nat),
    (copyArgumentsAccesses argTypes argStart k charCount).filterMap Access.type = [] := by
  intro k
  induction k with
  | zero => intro charCount; rfl
  | succ k ih =>
    intro charCount
    unfold copyArgumentsAccesses
    by_cases hc : charCount < ARGUMENTS_SIZE
    · have hone : (copyArgumentAccesses (argTypes k) argStart charCount).filterMap Access.type = [] := by
        unfold copyArgumentAccesses
        split
        · rfl
        · rw [List.filterMap_map, List.filterMap_eq_nil_iff]
          intro i _
          rfl
      simp only [if_pos hc, List.cons_append, List.filterMap_cons, Access.type, List.filterMap_append, hone, ih,
        List.nil_append]
    · simp only [if_neg hc, List.filterMap_nil]

/-- The letters written are the ones recorded. -/
theorem accesses_argTypes (call : Call) :
    applyStores call.argTypes (call.accesses.filterMap Access.type) = call.copied.argTypes := by
  simp only [Call.accesses, List.filterMap_append, List.filterMap_cons, Access.type, copyArgumentsAccesses_type,
    List.append_nil]
  exact copyMessageAccesses_type call.message 0 0 call.argTypes

/-! ## The indices -/

theorem message_argCount : ∀ (message : List Byte) (charCount argCount : Nat) (argTypes : Nat → Byte),
    argCount ≤ MAX_NUM_ARGUMENTS →
    argCount ≤ (copyMessage message charCount argCount argTypes).argCount ∧
      (copyMessage message charCount argCount argTypes).argCount ≤ MAX_NUM_ARGUMENTS := by
  intro message
  induction message with
  | nil => intro charCount argCount argTypes h; exact ⟨Nat.le_refl _, h⟩
  | cons c message ih =>
    intro charCount argCount argTypes h
    unfold copyMessage
    by_cases hc : c ≠ 0 ∧ charCount < MAX_NUM_CHARACTERS
    · by_cases hp : c = chr '%' ∧ argCount < MAX_NUM_ARGUMENTS
      · have hih := ih (charCount + 1) (argCount + 1) (Function.update argTypes argCount (message.headD 0)) (by omega)
        simp only [if_pos hc, if_pos hp]
        exact ⟨by omega, hih.2⟩
      · simp only [if_pos hc, if_neg hp]
        exact ih (charCount + 1) argCount argTypes h
    · simp only [if_neg hc]
      exact ⟨Nat.le_refl _, h⟩

/-- The letters written are those from `argCount` up to where the count ends. -/
theorem message_writes_iff (i : Nat) : ∀ (message : List Byte) (charCount argCount : Nat) (argTypes : Nat → Byte),
    (∃ letter, .writeType i letter ∈ copyMessageAccesses message charCount argCount) ↔
      argCount ≤ i ∧ i < (copyMessage message charCount argCount argTypes).argCount := by
  intro message
  induction message with
  | nil => intro charCount argCount argTypes; simp [copyMessageAccesses, copyMessage]
  | cons c message ih =>
    intro charCount argCount argTypes
    unfold copyMessageAccesses copyMessage
    by_cases hc : c ≠ 0 ∧ charCount < MAX_NUM_CHARACTERS
    · by_cases hp : c = chr '%' ∧ argCount < MAX_NUM_ARGUMENTS
      · simp only [if_pos hc, if_pos hp, List.mem_cons, Access.writeType.injEq, reduceCtorEq, false_or]
        obtain ⟨hcount, -⟩ := message_argCount message (charCount + 1) (argCount + 1)
          (Function.update argTypes argCount (message.headD 0)) (by omega)
        rw [exists_or, ih (charCount + 1) (argCount + 1) (Function.update argTypes argCount (message.headD 0))]
        constructor
        · intro h
          rcases h with ⟨letter, rfl, -⟩ | ⟨hle, hlt⟩
          · exact ⟨Nat.le_refl _, hcount⟩
          · exact ⟨Nat.le_of_succ_le hle, hlt⟩
        · intro h
          obtain ⟨hle, hlt⟩ := h
          rcases Nat.eq_or_lt_of_le hle with rfl | hle
          · exact .inl ⟨_, rfl, rfl⟩
          · exact .inr ⟨hle, hlt⟩
      · simp only [if_pos hc, if_neg hp, List.mem_cons, reduceCtorEq, false_or]
        exact ih (charCount + 1) argCount argTypes
    · simp only [if_neg hc, List.not_mem_nil, exists_false, false_iff]
      omega

/-- The loop over the message reads no letter, and stores inside the head. -/
theorem message_cases {a : Access} : ∀ {message : List Byte} {charCount argCount : Nat},
    a ∈ copyMessageAccesses message charCount argCount →
    (∃ i letter, a = .writeType i letter) ∨ ∃ i c, a = .writeHead i c ∧ i < MAX_NUM_CHARACTERS := by
  intro message
  induction message with
  | nil => intro charCount argCount h; cases h
  | cons c message ih =>
    intro charCount argCount h
    unfold copyMessageAccesses at h
    by_cases hc : c ≠ 0 ∧ charCount < MAX_NUM_CHARACTERS
    · by_cases hp : c = chr '%' ∧ argCount < MAX_NUM_ARGUMENTS
      · simp only [if_pos hc, if_pos hp, List.mem_cons] at h
        rcases h with rfl | rfl | h
        · exact .inl ⟨_, _, rfl⟩
        · exact .inr ⟨_, _, rfl, hc.2⟩
        · exact ih h
      · simp only [if_pos hc, if_neg hp, List.mem_cons] at h
        rcases h with rfl | h
        · exact .inr ⟨_, _, rfl, hc.2⟩
        · exact ih h
    · simp only [if_neg hc] at h
      cases h

theorem typeSelector_le (letter : Byte) : TYPE_SELECTOR letter ≤ 8 := by
  unfold TYPE_SELECTOR
  split_ifs <;> omega

/-- A copy that begins inside `arguments` passes its end by 7 bytes at most. -/
theorem argument_cases {letter : Byte} {argStart : Nat → Byte} {charCount : Nat} {a : Access}
    (h : a ∈ copyArgumentAccesses letter argStart charCount) (hc : charCount < ARGUMENTS_SIZE) :
    ∃ i b, a = .writeArgument i b ∧ i < ARGUMENTS_SIZE + 7 := by
  unfold copyArgumentAccesses at h
  split at h
  · obtain rfl := List.mem_singleton.mp h
    exact ⟨charCount, 0, rfl, by omega⟩
  · obtain ⟨i, hi, rfl⟩ := List.mem_map.mp h
    have hlt := List.mem_range.mp hi
    have hle := typeSelector_le letter
    exact ⟨charCount + i, _, rfl, by omega⟩

/-- The loop over the letters reads from the last one it is given down, and begins no copy
    behind the end of `arguments`. -/
theorem arguments_cases {argTypes argStart : Nat → Byte} {a : Access} : ∀ {k charCount : Nat},
    a ∈ copyArgumentsAccesses argTypes argStart k charCount →
    (∃ i, a = .readType i ∧ i < k) ∨ ∃ i b, a = .writeArgument i b ∧ i < ARGUMENTS_SIZE + 7 := by
  intro k
  induction k with
  | zero => intro charCount h; cases h
  | succ k ih =>
    intro charCount h
    unfold copyArgumentsAccesses at h
    by_cases hc : charCount < ARGUMENTS_SIZE
    · simp only [if_pos hc, List.cons_append, List.mem_cons, List.mem_append] at h
      rcases h with rfl | h | h
      · exact .inl ⟨k, rfl, Nat.lt_succ_self k⟩
      · exact .inr (argument_cases h hc)
      · rcases ih h with ⟨i, rfl, hi⟩ | hw
        · exact .inl ⟨i, rfl, by omega⟩
        · exact .inr hw
    · simp only [if_neg hc] at h
      cases h

/-! ## Inside the buffers -/

/-- The message in the structure: its first 199 characters, if it has so many, and a 0. -/
def StoredMessage (call : Call) (body : Nat → Byte) : Prop :=
  cells body 0 (min call.message.length 199) = call.message.take 199 ∧ body (min call.message.length 199) = 0

structure StaysInside (call : Call) : Prop where
  read : ∀ before i after, call.accesses = before ++ .readType i :: after →
    (∃ letter, .writeType i letter ∈ before) ∧ i < MAX_NUM_ARGUMENTS
  argument : ∀ i b, .writeArgument i b ∈ call.accesses → i < ARGUMENTS_SIZE
  head : ∀ i c, .writeHead i c ∈ call.accesses → i < MAX_NUM_CHARACTERS
  message : ∀ body, StoredMessage call (applyStores body call.stores)

/-- What a call does before it looks at an argument. -/
def Call.messageAccesses (call : Call) : List Access :=
  copyMessageAccesses call.message 0 0 ++
    [.writeHead (endMessage call.copied.charCount).1 (endMessage call.copied.charCount).2]

theorem messageAccesses_writes_iff (call : Call) (i : Nat) :
    (∃ letter, .writeType i letter ∈ call.messageAccesses) ↔ i < call.copied.argCount := by
  have hiff := message_writes_iff i call.message 0 0 call.argTypes
  simpa [Call.messageAccesses, Call.copied] using hiff

/-- Behind the message, the first access is a read one past the letters recorded; the other
    reads are of letters recorded. -/
theorem accesses_eq (call : Call) : ∃ after,
    call.accesses = call.messageAccesses ++ .readType call.copied.argCount :: after ∧
      ∀ a ∈ after, (∃ i, a = .readType i ∧ i < call.copied.argCount) ∨
        ∃ i b, a = .writeArgument i b ∧ i < ARGUMENTS_SIZE + 7 := by
  let first := copyArgumentAccesses (call.copied.argTypes call.copied.argCount) call.argStart 0
  let rest := copyArgumentsAccesses call.copied.argTypes call.argStart call.copied.argCount (0 + first.length)
  refine ⟨first ++ rest, ?_, ?_⟩
  · rw [Call.accesses, Call.messageAccesses, copyArgumentsAccesses, if_pos (by decide), List.append_assoc]
    rfl
  · intro a ha
    rcases List.mem_append.mp ha with h | h
    · exact .inr (argument_cases h (by decide))
    · exact arguments_cases h

/-- No call stays inside: the first letter it reads was never written. -/
theorem never_inside (call : Call) : ¬ StaysInside call := by
  intro h
  obtain ⟨after, heq, -⟩ := accesses_eq call
  have hwritten := (h.read _ _ _ heq).1
  rw [messageAccesses_writes_iff] at hwritten
  exact Nat.lt_irrefl _ hwritten

/-- Twenty doubles, and a 0 behind the twenty letters. -/
def twentyDoubles : Call := ⟨(List.replicate 20 [chr '%', chr 'f']).flatten, fun _ => 0, fun _ => 0⟩

/-- The thirteenth copy begins at index 96 of `arguments`, which has 100. -/
theorem twenty_doubles_run_over : ¬ ∀ call : Call, 0 ∉ call.message → StaysInside call := by
  intro hall
  have hin := hall twentyDoubles (by decide)
  have hwrite : Access.writeArgument 103 0 ∈ twentyDoubles.accesses := by decide +kernel
  exact absurd (hin.argument 103 0 hwrite) (by decide)

/-! ## What holds of each array -/

theorem messageAccesses_read (call : Call) (i : Nat) : .readType i ∉ call.messageAccesses := by
  intro h
  rcases List.mem_append.mp h with h | h
  · rcases message_cases h with ⟨_, _, he⟩ | ⟨_, _, he, -⟩ <;> cases he
  · cases List.mem_singleton.mp h

/-- The letters read are inside the array unless all 20 were recorded. -/
theorem reads_inside_iff (call : Call) :
    (∀ i, .readType i ∈ call.accesses → i < MAX_NUM_ARGUMENTS) ↔ call.copied.argCount < MAX_NUM_ARGUMENTS := by
  obtain ⟨after, heq, hafter⟩ := accesses_eq call
  rw [heq]
  constructor
  · intro h
    exact h _ (by simp)
  · intro h i hi
    rcases List.mem_append.mp hi with hi | hi
    · exact absurd hi (messageAccesses_read call i)
    · rcases List.mem_cons.mp hi with he | hi
      · cases he
        exact h
      · rcases hafter _ hi with ⟨j, he, hj⟩ | ⟨_, _, he, -⟩
        · cases he
          omega
        · cases he

/-- Every read but the one behind the letters is of a letter recorded before. -/
theorem reads_written (call : Call) {i : Nat} (h : .readType i ∈ call.accesses) :
    i = call.copied.argCount ∨ ∃ letter, .writeType i letter ∈ call.messageAccesses := by
  obtain ⟨after, heq, hafter⟩ := accesses_eq call
  rw [heq] at h
  rcases List.mem_append.mp h with h | h
  · exact absurd h (messageAccesses_read call i)
  · rcases List.mem_cons.mp h with he | h
    · cases he
      exact .inl rfl
    · rcases hafter _ h with ⟨j, he, hj⟩ | ⟨_, _, he, -⟩
      · cases he
        exact .inr ((messageAccesses_writes_iff call i).mpr hj)
      · cases he

theorem arguments_below (call : Call) {i : Nat} {b : Byte} (h : .writeArgument i b ∈ call.accesses) :
    i < ARGUMENTS_SIZE + 7 := by
  obtain ⟨after, heq, hafter⟩ := accesses_eq call
  rw [heq] at h
  rcases List.mem_append.mp h with h | h
  · rcases List.mem_append.mp h with h | h
    · rcases message_cases h with ⟨_, _, he⟩ | ⟨_, _, he, -⟩ <;> cases he
    · cases List.mem_singleton.mp h
  · rcases List.mem_cons.mp h with he | h
    · cases he
    · rcases hafter _ h with ⟨_, he, -⟩ | ⟨_, _, he, hi⟩
      · cases he
      · cases he
        exact hi

theorem head_inside (call : Call) {i : Nat} {c : Byte} (h : .writeHead i c ∈ call.accesses) : i < MAX_NUM_CHARACTERS := by
  obtain ⟨after, heq, hafter⟩ := accesses_eq call
  rw [heq] at h
  rcases List.mem_append.mp h with h | h
  · rcases List.mem_append.mp h with h | h
    · rcases message_cases h with ⟨_, _, he⟩ | ⟨_, _, he, hi⟩
      · cases he
      · cases he
        exact hi
    · cases List.mem_singleton.mp h
      obtain ⟨-, hcount⟩ := copyMessage_text call.message 0 0 call.argTypes (Nat.zero_le _)
      have hlen := List.length_take_le (MAX_NUM_CHARACTERS - 0) (call.message.takeWhile (· ≠ 0))
      rw [← Nat.zero_add (List.length _), ← hcount, Nat.sub_zero] at hlen
      change call.copied.charCount ≤ MAX_NUM_CHARACTERS at hlen
      unfold endMessage
      split
      · simp only [MAX_NUM_CHARACTERS] at *
        omega
      · dsimp only
        omega
  · rcases List.mem_cons.mp h with he | h
    · cases he
    · rcases hafter _ h with ⟨_, he, -⟩ | ⟨_, _, he, -⟩ <;> cases he

theorem stored_message (call : Call) (h : 0 ∉ call.message) (body : Nat → Byte) :
    StoredMessage call (applyStores body call.stores) := by
  have htake : call.message.takeWhile (· ≠ 0) = call.message := by
    rw [List.takeWhile_eq_self_iff]
    intro c hc
    simp only [ne_eq, decide_eq_true_eq]
    intro e
    subst e
    exact h hc
  have htext : call.text = call.message.take 199 := by rw [Call.text, htake]; rfl
  have hlen : call.text.length = min call.message.length 199 := by rw [htext, List.length_take, Nat.min_comm]
  have hset := settled_applyStores body call.stores
  refine ⟨?_, ?_⟩
  · rw [← hlen, ← htext]
    apply List.ext_getElem (by simp)
    intro i h1 h2
    rw [cells_getElem, Nat.zero_add, text_settled hset (Nat.le_of_lt h2), List.getD_eq_getElem _ _ h2]
  · rw [← hlen, text_settled hset (Nat.le_refl _), List.getD_eq_default _ _ (Nat.le_refl _)]

end EDarts.Runtime.Print
