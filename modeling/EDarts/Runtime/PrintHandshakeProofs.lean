/-
  EDarts.Runtime.PrintHandshakeProofs — when every print is a call's, intact and in order.

  The flag lies at the start of the structure, so the host's write-back lowers it first and
  copies the stale message and the stale arguments over the buffer only then. Meanwhile
  the next call may already have stored its own.

  `Inv` describes the hand-over: the calls are those printed, then at most one posted (the
  flag is raised for it and `landed` are its stores), then at most one that has the mutex
  and is not posted yet. What has landed is still in the buffer (`Settled`), and what the
  host has read of a posted call is that call's.

  - `delivered_throughout`: in every run in which no store of the write-back changes a byte
    that a device has stored since the flag was lowered, the prints are the first calls.
  - `a_write_back_empties_the_next_message`: without that, they are not.
-/

import EDarts.Runtime.PrintHandshake
import EDarts.Runtime.PrintProofs
import Mathlib.Data.List.TakeWhile

namespace EDarts.Runtime.Print

open Lib

/-! ## What a settled call looks like to the host -/

/-- The stores of the message, whatever its form. -/
theorem copyMessage_text : ∀ (message : List Byte) (charCount argCount : Nat) (argTypes : Nat → Byte),
    charCount ≤ MAX_NUM_CHARACTERS →
    let sent := (message.takeWhile (· ≠ 0)).take (MAX_NUM_CHARACTERS - charCount)
    (copyMessage message charCount argCount argTypes).stores = (sent.zipIdx charCount).map Prod.swap ∧
      (copyMessage message charCount argCount argTypes).charCount = charCount + sent.length := by
  intro message
  induction message with
  | nil => intro charCount argCount argTypes _; simp [copyMessage]
  | cons c message ih =>
    intro charCount argCount argTypes hle
    by_cases hc : c ≠ 0 ∧ charCount < MAX_NUM_CHARACTERS
    · obtain ⟨k, hk⟩ : ∃ k, MAX_NUM_CHARACTERS - charCount = k + 1 := ⟨MAX_NUM_CHARACTERS - charCount - 1, by omega⟩
      have hk' : MAX_NUM_CHARACTERS - (charCount + 1) = k := by omega
      have ih := fun argCount argTypes => ih (charCount + 1) argCount argTypes (by omega)
      simp only [hk'] at ih
      have hsent : ((c :: message).takeWhile (· ≠ 0)).take (k + 1) = c :: (message.takeWhile (· ≠ 0)).take k := by
        rw [List.takeWhile_cons_of_pos (by simpa using hc.1), List.take_succ_cons]
      simp only [copyMessage, if_pos hc, hk, hsent, List.zipIdx_cons, List.map_cons, Prod.swap_prod_mk, List.length_cons]
      by_cases h : c = chr '%' ∧ argCount < MAX_NUM_ARGUMENTS
      · obtain ⟨h1, h2⟩ := ih (argCount + 1) (Function.update argTypes argCount (message.headD 0))
        exact ⟨by rw [if_pos h, h1], by rw [if_pos h, h2]; omega⟩
      · obtain ⟨h1, h2⟩ := ih argCount argTypes
        exact ⟨by rw [if_neg h, h1], by rw [if_neg h, h2]; omega⟩
    · have hsent : ((c :: message).takeWhile (· ≠ 0)).take (MAX_NUM_CHARACTERS - charCount) = [] := by
        by_cases h0 : c = 0
        · rw [List.takeWhile_cons_of_neg (by simpa using h0), List.take_nil]
        · have hfull : MAX_NUM_CHARACTERS - charCount = 0 := by
            have : ¬ charCount < MAX_NUM_CHARACTERS := fun h => hc ⟨h0, h⟩
            omega
          rw [hfull, List.take_zero]
      simp only [copyMessage, if_neg hc, hsent]
      exact ⟨rfl, rfl⟩

/-- The argument bytes go to consecutive cells. -/
theorem copyArguments_consecutive (argTypes argStart : Nat → Byte) : ∀ (k charCount : Nat),
    copyArguments argTypes argStart k charCount =
      (((copyArguments argTypes argStart k charCount).map Prod.snd).zipIdx charCount).map
        fun x => (ARGUMENTS + x.2, x.1) := by
  have harg : ∀ letter charCount, copyArgument letter argStart charCount =
      (((copyArgument letter argStart charCount).map Prod.snd).zipIdx charCount).map fun x => (ARGUMENTS + x.2, x.1) := by
    intro letter charCount
    unfold copyArgument
    by_cases hs : letter = chr 's' ∨ letter = chr 'S'
    · simp only [if_pos hs, List.map_cons, List.map_nil, List.zipIdx_cons, List.zipIdx_nil]
    · rw [if_neg hs]
      apply List.ext_getElem (by simp)
      intro i h1 h2
      simp
  intro k
  induction k with
  | zero => intro charCount; rfl
  | succ k ih =>
    intro charCount
    rw [copyArguments]
    by_cases hc : charCount < ARGUMENTS_SIZE
    · simp only [if_pos hc]
      rw [List.map_append, List.zipIdx_append, List.map_append, List.length_map, ← harg, ← ih]
    · rw [if_neg hc]; rfl

theorem applyStores_consecutive (m : Nat → Byte) (a : Nat) {bs : List Byte} {j : Nat} (hj : j < bs.length) :
    applyStores m ((bs.zipIdx 0).map fun x => (a + x.2, x.1)) (a + j) = bs[j] := by
  refine applyStores_eq ⟨(a + j, bs[j]), ?_, rfl⟩ fun x hx he => ?_
  · exact List.mem_map.mpr ⟨(bs[j], j), List.mem_zipIdx_iff_getElem?.mpr (List.getElem?_eq_getElem hj), rfl⟩
  · obtain ⟨y, hy, rfl⟩ := List.mem_map.mp hx
    have hyj : y.2 = j := by omega
    have hget := List.mem_zipIdx_iff_getElem?.mp hy
    rw [hyj, List.getElem?_eq_getElem hj] at hget
    exact (Option.some.inj hget).symm

theorem Call.text_length (call : Call) : call.text.length ≤ 199 := by
  rw [text, List.length_take]
  exact Nat.min_le_left _ _

/-- The 0 goes behind the message, truncated or not, and the arguments go elsewhere. -/
theorem Call.stores_eq (call : Call) : ∃ sent : List Byte, call.text = sent.take 199 ∧
    call.stores = (sent.zipIdx 0).map Prod.swap ++ [(call.text.length, 0)] ++
      copyArguments (copyMessage call.message 0 0 call.argTypes).argTypes call.argStart
        ((copyMessage call.message 0 0 call.argTypes).argCount + 1) 0 := by
  obtain ⟨hstores, hcount⟩ := copyMessage_text call.message 0 0 call.argTypes (Nat.zero_le _)
  simp only [Nat.sub_zero, Nat.zero_add] at hstores hcount
  generalize hsent : (call.message.takeWhile (· ≠ 0)).take MAX_NUM_CHARACTERS = sent at hstores hcount
  have htext : call.text = sent.take 199 := by
    rw [← hsent, List.take_take]
    rfl
  have hlen : sent.length ≤ 200 := by
    rw [← hsent, List.length_take]
    exact Nat.min_le_left _ _
  refine ⟨sent, htext, ?_⟩
  have hend : endMessage sent.length = (call.text.length, 0) := by
    rw [htext, List.length_take, endMessage, MAX_NUM_CHARACTERS]
    split
    · rw [Nat.min_eq_left (by omega)]; congr 1; omega
    · rw [Nat.min_eq_right (by omega)]
  simp only [stores, hstores, hcount, hend]

theorem text_settled {call : Call} {m : Nat → Byte} (h : Settled call.stores m) {i : Nat} (hi : i ≤ call.text.length) :
    m i = call.text.getD i 0 := by
  obtain ⟨sent, htext, hstores⟩ := call.stores_eq
  have hlen := call.text_length
  have hargs : ∀ x ∈ copyArguments (copyMessage call.message 0 0 call.argTypes).argTypes call.argStart
      ((copyMessage call.message 0 0 call.argTypes).argCount + 1) 0, x.1 ≠ i := by
    intro x hx
    obtain ⟨k, -, hk, -⟩ := mem_copyArguments hx
    simp only [ARGUMENTS, MAX_NUM_CHARACTERS] at hk
    omega
  rw [← congrFun h i, hstores, applyStores_append, applyStores_of_not_mem hargs, applyStores_concat]
  by_cases he : i = call.text.length
  · rw [he, Function.update_self, List.getD_eq_default _ _ (Nat.le_refl _)]
  · have hlt : i < sent.length := by rw [htext, List.length_take] at hi he; omega
    rw [Function.update_of_ne he, htext, List.getD_eq_getElem _ _ (by rw [← htext]; omega), List.getElem_take]
    refine applyStores_eq ⟨(i, sent[i]), mem_messageStores.mpr (List.getElem?_eq_getElem hlt), rfl⟩ fun x hx hxi => ?_
    have hget := mem_messageStores.mp hx
    rw [hxi, List.getElem?_eq_getElem hlt] at hget
    exact (Option.some.inj hget).symm

theorem arguments_settled {call : Call} {m : Nat → Byte} (h : Settled call.stores m) :
    call.argumentBytes <+: cells m ARGUMENTS ARGUMENTS_SIZE := by
  obtain ⟨sent, htext, hstores⟩ := call.stores_eq
  generalize hbs : (copyArguments (copyMessage call.message 0 0 call.argTypes).argTypes call.argStart
    ((copyMessage call.message 0 0 call.argTypes).argCount + 1) 0).map Prod.snd = bs
  have hbytes : call.argumentBytes = bs.take ARGUMENTS_SIZE := congrArg (List.take ARGUMENTS_SIZE) hbs
  have hcons := copyArguments_consecutive (copyMessage call.message 0 0 call.argTypes).argTypes call.argStart
    ((copyMessage call.message 0 0 call.argTypes).argCount + 1) 0
  rw [hbs] at hcons
  have hcell : ∀ j (hj : j < bs.length), m (ARGUMENTS + j) = bs[j] := by
    intro j hj
    rw [← congrFun h, hstores, hcons, applyStores_append]
    exact applyStores_consecutive _ _ hj
  rw [hbytes, List.prefix_iff_eq_take]
  refine List.ext_getElem ?_ fun j h1 h2 => ?_
  · simp only [List.length_take, cells_length]
    omega
  · rw [List.length_take] at h1
    rw [List.getElem_take, List.getElem_take, cells_getElem, hcell j (by omega)]

/-- What is settled in a body is what is printed from it. -/
theorem intact_of_settled {call : Call} {b : PrintBuffer} (h : Settled call.stores b.body) : Intact call b.contents := by
  refine ⟨?_, arguments_settled h⟩
  have hlen := call.text_length
  obtain ⟨k, hk⟩ : ∃ k, MAX_NUM_CHARACTERS = call.text.length + (1 + k) :=
    ⟨199 - call.text.length, by simp only [MAX_NUM_CHARACTERS]; omega⟩
  have hhead : cells b.body 0 call.text.length = call.text := by
    apply List.ext_getElem (cells_length _ _ _)
    intro i h1 h2
    rw [cells_getElem, Nat.zero_add, text_settled h (Nat.le_of_lt h2), List.getD_eq_getElem _ _ h2]
  have hzero : cells b.body (0 + call.text.length) 1 = [0] := by
    have h0 := text_settled h (Nat.le_refl _)
    rw [List.getD_eq_default _ _ (Nat.le_refl _)] at h0
    simp [cells, h0]
  have hnz : ∀ c ∈ call.text, (decide (c ≠ 0)) = true := fun c hc =>
    List.mem_takeWhile_imp (p := fun c => decide (c ≠ (0 : Byte))) (List.mem_of_mem_take hc)
  rw [PrintBuffer.contents, hk, cells_append, cells_append, hhead, hzero, List.takeWhile_append_of_pos hnz]
  simp

/-- Only the bytes of the structure are printed. -/
theorem contents_congr {b b' : PrintBuffer} (h : ∀ j, j + 2 < FIELDS → b.body j = b'.body j) :
    b.contents = b'.contents := by
  simp only [FIELDS, MAX_NUM_CHARACTERS, ARGUMENTS_SIZE] at h
  have h1 : cells b.body 0 MAX_NUM_CHARACTERS = cells b'.body 0 MAX_NUM_CHARACTERS :=
    cells_congr fun i hi => h _ (by simp only [MAX_NUM_CHARACTERS] at hi; omega)
  have h2 : cells b.body ARGUMENTS ARGUMENTS_SIZE = cells b'.body ARGUMENTS ARGUMENTS_SIZE :=
    cells_congr fun i hi => h _ (by simp only [ARGUMENTS_SIZE] at hi; simp only [ARGUMENTS, MAX_NUM_CHARACTERS]; omega)
  rw [PrintBuffer.contents, PrintBuffer.contents, h1, h2]

/-! ## The hand-over -/

section HandOver

variable {Core : Type} {s : State Core}

/-- The call of a core in the mutex, until it raises the flag. -/
def DevicePc.unposted : DevicePc → Option Call
  | .spinning call => some call
  | .writing call _ => some call
  | _ => none

def State.waiting (s : State Core) : Option Call := s.holder.bind fun c => (s.cores c).unposted

/-- `done` are the calls printed, `posted` is the one that the flag is raised for. -/
structure Inv (done : List Call) (posted : Option Call) (s : State Core) : Prop where
  mutex : ∀ c, s.cores c ≠ .idle ↔ s.holder = some c
  calls : s.calls = done ++ posted.toList ++ s.waiting.toList
  intact : List.Forall₂ Intact done s.printed
  settled : Settled s.landed s.buffer.body
  raised : ∀ call, posted = some call →
    s.buffer.sendPrintInstruction = 1 ∧ s.landed = call.stores ∧ s.host ≠ .writing 0
  lowered : posted = none → s.host ≠ .writing 0 → s.buffer.sendPrintInstruction = 0
  lowering : s.host = .writing 0 → posted = none ∧ s.buffer.sendPrintInstruction = 1
  writing : ∀ c call k, s.cores c = .writing call k →
    s.buffer.sendPrintInstruction = 0 ∧ k ≤ call.stores.length ∧ s.landed = call.stores.take k
  fresh : s.buffer.sendPrintInstruction = 0 → (∀ c call k, s.cores c ≠ .writing call k) → s.landed = []
  read : ∀ i, s.host = .reading i → 0 < i → s.myBuffer.sendPrintInstruction = 1 →
    posted ≠ none ∧ ∀ j, j + 2 < i → s.myBuffer.body j = s.buffer.body j
  cleared : ∀ i, s.host = .writing i → s.myBuffer.sendPrintInstruction = 0

variable {done : List Call} {posted : Option Call}

theorem Inv.delivered (H : Inv done posted s) : Delivered s := by
  rw [Delivered, H.calls, List.append_assoc, ← H.intact.length_eq, List.take_left' rfl]
  exact H.intact

theorem Delivered.messages (h : Delivered s) :
    s.printed.map Printed.message = (s.calls.take s.printed.length).map Call.text := by
  unfold Delivered at h
  generalize s.calls.take s.printed.length = calls at h
  generalize s.printed = printed at h
  induction h with
  | nil => rfl
  | cons hi _ ih => rw [List.map_cons, List.map_cons, hi.1, ih]

theorem inv_start (hs : Start s) : Inv [] none s where
  mutex c := by simp [hs.cores c, hs.holder]
  calls := by simp [hs.calls, State.waiting, hs.holder]
  intact := by rw [hs.printed]; exact .nil
  settled := by rw [hs.landed]; exact settled_nil _
  raised _ h := by cases h
  lowered _ _ := hs.flag
  lowering h := by rw [hs.host] at h; cases h
  writing c _ _ h := by rw [hs.cores c] at h; cases h
  fresh _ _ := hs.landed
  read _ h := by rw [hs.host] at h; cases h
  cleared _ h := by rw [hs.host] at h; cases h

theorem Inv.only (H : Inv done posted s) {c c' : Core} (hc : s.cores c ≠ .idle) (hc' : s.cores c' ≠ .idle) : c' = c :=
  Option.some.inj (((H.mutex c').mp hc').symm.trans ((H.mutex c).mp hc))

theorem Inv.waiting_eq (H : Inv done posted s) {c : Core} (hc : s.cores c ≠ .idle) :
    s.waiting = (s.cores c).unposted := by
  rw [State.waiting, (H.mutex c).mp hc, Option.bind_some]

/-- While the flag is down nothing is posted, and the write-back is past it. -/
theorem Inv.down (H : Inv done posted s) (hf : s.buffer.sendPrintInstruction = 0) :
    posted = none ∧ s.host ≠ .writing 0 := by
  constructor
  · cases hp : posted with
    | none => rfl
    | some call => rw [(H.raised call hp).1] at hf; exact absurd hf (by decide)
  · intro hh
    rw [(H.lowering hh).2] at hf
    exact absurd hf (by decide)

/-! ## The host's steps -/

/-- The host goes to a place where it neither reads nor writes back. -/
theorem inv_turn (H : Inv done posted s) {h : HostPc} (hold : s.host ≠ .writing 0) (hw : ∀ i, h ≠ .writing i)
    (hr : ∀ i, h = .reading i → i = 0) : Inv done posted { s with host := h } :=
  { H with
    raised := fun call hp => ⟨(H.raised call hp).1, (H.raised call hp).2.1, hw 0⟩
    lowered := fun hp _ => H.lowered hp hold
    lowering := fun h0 => absurd h0 (hw 0)
    read := fun i hi h0 => by rw [hr i hi] at h0; cases h0
    cleared := fun i hi => absurd hi (hw i) }

theorem inv_read (H : Inv done posted s) {i : Nat} (hh : s.host = .reading i) :
    Inv done posted { s with myBuffer := copyField s.buffer s.myBuffer i, host := .reading (i + 1) } :=
  have hold : s.host ≠ .writing 0 := by rw [hh]; simp
  { H with
    raised := fun call hp => ⟨(H.raised call hp).1, (H.raised call hp).2.1, by simp⟩
    lowered := fun hp _ => H.lowered hp hold
    lowering := fun h0 => by cases h0
    read := fun i' hi' _ hm => by
      obtain rfl : i + 1 = i' := by simpa using hi'
      match i with
      | 0 =>
        refine ⟨fun hp => ?_, fun j hj => by omega⟩
        have h0 := H.lowered hp hold
        have h1 : s.buffer.sendPrintInstruction = 1 := hm
        rw [h0] at h1
        cases h1
      | 1 => exact ⟨(H.read 1 hh (by omega) hm).1, fun j hj => by omega⟩
      | j + 2 =>
        obtain ⟨hp, hread⟩ := H.read (j + 2) hh (by omega) hm
        refine ⟨hp, fun j' hj' => ?_⟩
        show Function.update s.myBuffer.body j (s.buffer.body j) j' = s.buffer.body j'
        by_cases hjj : j' = j
        · rw [hjj, Function.update_self]
        · rw [Function.update_of_ne hjj]
          exact hread j' (by omega)
    cleared := fun i hi => by cases hi }

/-- What is printed is the posted call. -/
theorem inv_print (H : Inv done posted s) {i : Nat} (hh : s.host = .reading i) (hi : FIELDS ≤ i)
    (hf : s.myBuffer.sendPrintInstruction = 1) :
    ∃ call, Inv (done ++ [call]) none { s with
      printed := s.printed ++ [s.myBuffer.contents]
      myBuffer := s.myBuffer.clear
      host := .writing 0 } := by
  obtain ⟨hp, hread⟩ := H.read i hh (Nat.lt_of_lt_of_le (by decide) hi) hf
  obtain ⟨call, rfl⟩ := Option.ne_none_iff_exists'.mp hp
  obtain ⟨hflag, hlanded, -⟩ := H.raised call rfl
  have hintact : Intact call s.myBuffer.contents := by
    rw [contents_congr fun j hj => hread j (by omega)]
    exact intact_of_settled (hlanded ▸ H.settled)
  exact ⟨call,
    { H with
      calls := by rw [H.calls]; simp [State.waiting]
      intact := List.rel_append H.intact (.cons hintact .nil)
      raised := fun _ h => by cases h
      lowered := fun _ h => absurd rfl h
      lowering := fun _ => ⟨rfl, hflag⟩
      read := fun _ h => by cases h
      cleared := fun _ _ => rfl }⟩

/-- One field of the write-back. -/
theorem inv_write (H : Inv done posted s) {i : Nat} (hh : s.host = .writing i) (hi : i < FIELDS)
    (hkeep : KeepsLanded s .host) :
    Inv done posted { s with
      buffer := copyField s.myBuffer s.buffer i
      landed := if i = 0 then [] else s.landed
      host := .writing (i + 1) } := by
  have hcleared := H.cleared i hh
  match i with
  | 0 =>
    obtain ⟨hp, hflag⟩ := H.lowering hh
    exact
      { H with
        settled := settled_nil _
        raised := fun _ h => by rw [hp] at h; cases h
        lowered := fun _ _ => hcleared
        lowering := fun h => by cases h
        writing := fun c call k h => by
          rw [(H.writing c call k h).1] at hflag
          cases hflag
        fresh := fun _ _ => rfl
        read := fun _ h => by cases h
        cleared := fun _ _ => hcleared }
  | 1 =>
    have hold : s.host ≠ .writing 0 := by rw [hh]; simp
    exact
      { H with
        raised := fun call hp => ⟨(H.raised call hp).1, (H.raised call hp).2.1, by simp⟩
        lowered := fun hp _ => H.lowered hp hold
        lowering := fun h => by cases h
        read := fun _ h => by cases h
        cleared := fun _ _ => hcleared }
  | j + 2 =>
    have hold : s.host ≠ .writing 0 := by rw [hh]; simp
    simp only [KeepsLanded, hh] at hkeep
    exact
      { H with
        settled := H.settled.write fun ⟨x, hx, hxj⟩ => hkeep hi (List.mem_map.mpr ⟨x, hx, hxj⟩)
        raised := fun call hp => ⟨(H.raised call hp).1, (H.raised call hp).2.1, by simp⟩
        lowered := fun hp _ => H.lowered hp hold
        lowering := fun h => by cases h
        read := fun _ h => by cases h
        cleared := fun _ _ => hcleared }

end HandOver

/-! ## The devices' steps -/

section System

variable {Core : Type} [DecidableEq Core] {s s' : State Core} {done : List Call} {posted : Option Call}

/-- What a step can do. -/
inductive Moves (s : State Core) : Action Core → State Core → Prop
  | call {c : Core} {call : Call} (hc : s.cores c = .idle) (hfree : s.holder = none) :
      Moves s (.call c call) ({ s with holder := some c, calls := s.calls ++ [call] }.setCore c (.spinning call))
  | observe {c : Core} {call : Call} (hc : s.cores c = .spinning call) (hf : s.buffer.sendPrintInstruction = 0) :
      Moves s (.device c) (s.setCore c (.writing call 0))
  | store {c : Core} {call : Call} {k : Nat} {x : Nat × Byte} (hc : s.cores c = .writing call k)
      (hx : call.stores[k]? = some x) :
      Moves s (.device c) ({ s with
        buffer := { s.buffer with body := Function.update s.buffer.body x.1 x.2 }
        landed := s.landed ++ [x] }.setCore c (.writing call (k + 1)))
  | raise {c : Core} {call : Call} {k : Nat} (hc : s.cores c = .writing call k) (hk : call.stores.length ≤ k) :
      Moves s (.device c) ({ s with buffer := { s.buffer with sendPrintInstruction := 1 } }.setCore c .unlocking)
  | unlock {c : Core} (hc : s.cores c = .unlocking) : Moves s (.device c) ({ s with holder := none }.setCore c .idle)
  | loop (hh : s.host = .looping) : Moves s .host { s with host := if s.stillRunning then .reading 0 else .ended }
  | read {i : Nat} (hh : s.host = .reading i) (hi : i < FIELDS) :
      Moves s .host { s with myBuffer := copyField s.buffer s.myBuffer i, host := .reading (i + 1) }
  | print {i : Nat} (hh : s.host = .reading i) (hi : FIELDS ≤ i) (hf : s.myBuffer.sendPrintInstruction = 1) :
      Moves s .host { s with
        printed := s.printed ++ [s.myBuffer.contents]
        myBuffer := s.myBuffer.clear
        host := .writing 0 }
  | skip {i : Nat} (hh : s.host = .reading i) : Moves s .host { s with host := .looping }
  | write {i : Nat} (hh : s.host = .writing i) (hi : i < FIELDS) :
      Moves s .host { s with
        buffer := copyField s.myBuffer s.buffer i
        landed := if i = 0 then [] else s.landed
        host := .writing (i + 1) }
  | written {i : Nat} (hh : s.host = .writing i) (hi : FIELDS ≤ i) : Moves s .host { s with host := .looping }
  | stop : Moves s .stop { s with stillRunning := false }

theorem moves_of_step {a : Action Core} {o : Unit} (h : step s a = some (o, s')) : Moves s a s' := by
  cases a with
  | call c call =>
    simp only [step] at h
    split at h
    · next hc hfree => obtain rfl := congrArg Prod.snd (Option.some.inj h); exact .call hc hfree
    · cases h
  | device c =>
    simp only [step, Option.map_eq_some_iff, deviceStep] at h
    obtain ⟨s₁, h, he⟩ := h
    obtain rfl := congrArg Prod.snd he
    split at h
    · cases h
    · next call hc =>
      split at h
      · cases h
      · next hf => obtain rfl := Option.some.inj h; exact .observe hc (not_not.mp hf)
    · next call k hc =>
      split at h
      · next x hx => obtain rfl := Option.some.inj h; exact .store hc hx
      · next hx => obtain rfl := Option.some.inj h; exact .raise hc (List.getElem?_eq_none_iff.mp hx)
    · next hc => obtain rfl := Option.some.inj h; exact .unlock hc
  | host =>
    simp only [step, Option.map_eq_some_iff, hostStep] at h
    obtain ⟨s₁, h, he⟩ := h
    obtain rfl := congrArg Prod.snd he
    split at h
    · next hh => obtain rfl := Option.some.inj h; exact .loop hh
    · next i hh =>
      by_cases hi : i < FIELDS
      · rw [if_pos hi] at h; obtain rfl := Option.some.inj h; exact .read hh hi
      · rw [if_neg hi] at h
        by_cases hf : s.myBuffer.sendPrintInstruction = 1
        · rw [if_pos hf] at h; obtain rfl := Option.some.inj h; exact .print hh (Nat.not_lt.mp hi) hf
        · rw [if_neg hf] at h; obtain rfl := Option.some.inj h; exact .skip hh
    · next i hh =>
      by_cases hi : i < FIELDS
      · rw [if_pos hi] at h; obtain rfl := Option.some.inj h; exact .write hh hi
      · rw [if_neg hi] at h; obtain rfl := Option.some.inj h; exact .written hh (Nat.not_lt.mp hi)
    · cases h
  | stop =>
    obtain rfl := congrArg Prod.snd (Option.some.inj h)
    exact .stop

@[simp] theorem setCore_self (s : State Core) (c : Core) (pc : DevicePc) : (s.setCore c pc).cores c = pc :=
  Function.update_self _ _ _

theorem setCore_of_ne (s : State Core) {c c' : Core} (pc : DevicePc) (h : c' ≠ c) :
    (s.setCore c pc).cores c' = s.cores c' := Function.update_of_ne h _ _

/-- The holder stays in its call. -/
theorem Inv.mutex_setCore (H : Inv done posted s) {c : Core} (hc : s.cores c ≠ .idle) {pc : DevicePc} (hpc : pc ≠ .idle)
    (c' : Core) : Function.update s.cores c pc c' ≠ .idle ↔ s.holder = some c' := by
  by_cases h : c' = c
  · rw [h, Function.update_self]
    exact ⟨fun _ => (H.mutex c).mp hc, fun _ => hpc⟩
  · rw [Function.update_of_ne h]
    exact H.mutex c'

/-- A call that goes on and is not posted yet still waits. -/
theorem Inv.waiting_setCore (H : Inv done posted s) {c : Core} (hc : s.cores c ≠ .idle) {pc : DevicePc}
    (hpc : pc.unposted = (s.cores c).unposted) : (s.setCore c pc).waiting = s.waiting := by
  rw [H.waiting_eq hc, ← hpc, State.waiting]
  simp only [State.setCore, (H.mutex c).mp hc, Option.bind_some, Function.update_self]

theorem inv_call (H : Inv done posted s) (c : Core) (call : Call) (hfree : s.holder = none) :
    Inv done posted ({ s with holder := some c, calls := s.calls ++ [call] }.setCore c (.spinning call)) := by
  have hidle : ∀ c', s.cores c' = .idle := by
    intro c'
    by_contra h
    have := (H.mutex c').mp h
    rw [hfree] at this
    cases this
  have hnone : ∀ c' call' k, Function.update s.cores c (.spinning call) c' ≠ .writing call' k := by
    intro c' call' k
    by_cases h : c' = c
    · rw [h, Function.update_self]; simp
    · rw [Function.update_of_ne h, hidle c']; simp
  have hcalls : s.calls = done ++ posted.toList := by simpa [State.waiting, hfree] using H.calls
  exact
    { mutex := fun c' => by
        show Function.update s.cores c (.spinning call) c' ≠ .idle ↔ some c = some c'
        by_cases h : c' = c
        · rw [h, Function.update_self]; simp
        · rw [Function.update_of_ne h, hidle c']; simp [Ne.symm h]
      calls := by
        simp only [State.waiting, State.setCore, Option.bind_some, Function.update_self, hcalls, DevicePc.unposted,
          Option.toList_some]
      intact := H.intact
      settled := H.settled
      raised := H.raised
      lowered := H.lowered
      lowering := H.lowering
      writing := fun c' call' k h => absurd h (hnone c' call' k)
      fresh := fun hf _ => H.fresh hf fun c' call' k => by rw [hidle c']; simp
      read := H.read
      cleared := H.cleared }

theorem inv_observe (H : Inv done posted s) {c : Core} {call : Call} (hc : s.cores c = .spinning call)
    (hf : s.buffer.sendPrintInstruction = 0) : Inv done posted (s.setCore c (.writing call 0)) := by
  have hin : s.cores c ≠ .idle := by rw [hc]; simp
  have hlanded : s.landed = [] := by
    apply H.fresh hf
    intro c' call' k h
    have := H.only hin (show s.cores c' ≠ .idle by rw [h]; simp)
    rw [this, hc] at h
    cases h
  exact
    { mutex := H.mutex_setCore hin (by simp)
      calls := by
        rw [H.waiting_setCore hin (by rw [hc]; rfl)]
        exact H.calls
      intact := H.intact
      settled := H.settled
      raised := H.raised
      lowered := H.lowered
      lowering := H.lowering
      writing := fun c' call' k h => by
        by_cases hcc : c' = c
        · rw [hcc, setCore_self] at h
          obtain ⟨rfl, rfl⟩ : call = call' ∧ 0 = k := by simpa using h
          exact ⟨hf, Nat.zero_le _, hlanded⟩
        · rw [setCore_of_ne s _ hcc] at h
          exact H.writing c' call' k h
      fresh := fun _ _ => hlanded
      read := H.read
      cleared := H.cleared }

theorem inv_store (H : Inv done posted s) {c : Core} {call : Call} {k : Nat} {x : Nat × Byte}
    (hc : s.cores c = .writing call k) (hx : call.stores[k]? = some x) :
    Inv done posted ({ s with
      buffer := { s.buffer with body := Function.update s.buffer.body x.1 x.2 }
      landed := s.landed ++ [x] }.setCore c (.writing call (k + 1))) := by
  have hin : s.cores c ≠ .idle := by rw [hc]; simp
  obtain ⟨hf, hk, hlanded⟩ := H.writing c call k hc
  obtain ⟨hp, hhost⟩ := H.down hf
  obtain ⟨hlt, hget⟩ := List.getElem?_eq_some_iff.mp hx
  exact
    { mutex := H.mutex_setCore hin (by simp)
      calls := by
        show s.calls = done ++ posted.toList ++ (s.setCore c (.writing call (k + 1))).waiting.toList
        rw [H.waiting_setCore hin (by rw [hc]; rfl)]
        exact H.calls
      intact := H.intact
      settled := H.settled.concat x
      raised := fun call' h => by rw [hp] at h; cases h
      lowered := fun _ _ => hf
      lowering := fun h => absurd h hhost
      writing := fun c' call' k' h => by
        by_cases hcc : c' = c
        · rw [hcc, setCore_self] at h
          obtain ⟨rfl, rfl⟩ : call = call' ∧ k + 1 = k' := by simpa using h
          refine ⟨hf, hlt, ?_⟩
          show s.landed ++ [x] = call.stores.take (k + 1)
          rw [hlanded, List.take_succ_eq_append_getElem hlt, hget]
        · rw [setCore_of_ne _ _ hcc] at h
          exact absurd (H.only hin (by rw [show s.cores c' = .writing call' k' from h]; simp)) hcc
      fresh := fun _ h => absurd (setCore_self _ c _) (h c call (k + 1))
      read := fun i hi h0 hm => absurd hp (H.read i hi h0 hm).1
      cleared := H.cleared }

theorem inv_raise (H : Inv done posted s) {c : Core} {call : Call} {k : Nat} (hc : s.cores c = .writing call k)
    (hk : call.stores.length ≤ k) :
    Inv done (some call) ({ s with buffer := { s.buffer with sendPrintInstruction := 1 } }.setCore c .unlocking) := by
  have hin : s.cores c ≠ .idle := by rw [hc]; simp
  obtain ⟨hf, hk', hlanded⟩ := H.writing c call k hc
  obtain ⟨hp, hhost⟩ := H.down hf
  obtain rfl : k = call.stores.length := by omega
  rw [List.take_length] at hlanded
  have hnone : ∀ c' call' k, Function.update s.cores c .unlocking c' ≠ .writing call' k := by
    intro c' call' k h
    by_cases hcc : c' = c
    · rw [hcc, Function.update_self] at h; cases h
    · rw [Function.update_of_ne hcc] at h
      exact hcc (H.only hin (by rw [h]; simp))
  exact
    { mutex := H.mutex_setCore hin (by simp)
      calls := by
        rw [State.setCore, H.calls, H.waiting_eq hin, hc, State.waiting, hp]
        simp only [(H.mutex c).mp hin, Option.bind_some, Function.update_self, DevicePc.unposted, Option.toList_none,
          Option.toList_some, List.append_nil]
      intact := H.intact
      settled := H.settled
      raised := fun call' h => by
        obtain rfl := Option.some.inj h
        exact ⟨rfl, hlanded, hhost⟩
      lowered := fun h => by cases h
      lowering := fun h => absurd h hhost
      writing := fun c' call' k h => absurd h (hnone c' call' k)
      fresh := fun h => absurd h (by decide : (1 : Word) ≠ 0)
      read := fun i hi h0 hm => absurd hp (H.read i hi h0 hm).1
      cleared := H.cleared }

theorem inv_unlock (H : Inv done posted s) {c : Core} (hc : s.cores c = .unlocking) :
    Inv done posted ({ s with holder := none }.setCore c .idle) := by
  have hin : s.cores c ≠ .idle := by rw [hc]; simp
  have hidle : ∀ c', Function.update s.cores c .idle c' = .idle := by
    intro c'
    by_cases hcc : c' = c
    · rw [hcc, Function.update_self]
    · rw [Function.update_of_ne hcc]
      by_contra h
      exact hcc (H.only hin h)
  exact
    { mutex := fun c' => by
        show Function.update s.cores c .idle c' ≠ .idle ↔ none = some c'
        simp [hidle c']
      calls := by
        rw [State.setCore, H.calls, H.waiting_eq hin, hc, State.waiting]
        rfl
      intact := H.intact
      settled := H.settled
      raised := H.raised
      lowered := H.lowered
      lowering := H.lowering
      writing := fun c' call' k h => by cases (hidle c').symm.trans h
      fresh := fun hf _ => H.fresh hf fun c' call' k h => by
        have := H.only hin (show s.cores c' ≠ .idle by rw [h]; simp)
        rw [this, hc] at h
        cases h
      read := H.read
      cleared := H.cleared }

/-! ## Runs -/

theorem inv_step {a : Action Core} {o : Unit} (H : ∃ done posted, Inv done posted s) (hkeep : KeepsLanded s a)
    (h : step s a = some (o, s')) : ∃ done posted, Inv done posted s' := by
  obtain ⟨done, posted, H⟩ := H
  cases moves_of_step h with
  | call hc hfree => exact ⟨_, _, inv_call H _ _ hfree⟩
  | observe hc hf => exact ⟨_, _, inv_observe H hc hf⟩
  | store hc hx => exact ⟨_, _, inv_store H hc hx⟩
  | raise hc hk => exact ⟨_, _, inv_raise H hc hk⟩
  | unlock hc => exact ⟨_, _, inv_unlock H hc⟩
  | loop hh =>
    refine ⟨_, _, inv_turn H (by rw [hh]; simp) (fun i => ?_) fun i hi => ?_⟩
    · split <;> simp
    · split at hi
      · exact (HostPc.reading.inj hi).symm
      · cases hi
  | read hh hi => exact ⟨_, _, inv_read H hh⟩
  | print hh hi hf =>
    obtain ⟨call, H'⟩ := inv_print H hh hi hf
    exact ⟨_, _, H'⟩
  | skip hh => exact ⟨_, _, inv_turn H (by rw [hh]; simp) (by simp) (by simp)⟩
  | write hh hi => exact ⟨_, _, inv_write H hh hi hkeep⟩
  | written hh hi =>
    refine ⟨_, _, inv_turn H (fun h => ?_) (by simp) (by simp)⟩
    rw [hh, HostPc.writing.injEq] at h
    rw [h] at hi
    exact absurd hi (by decide)
  | stop => exact ⟨_, _, { H with }⟩

/-- In every run in which no store of the write-back changes a byte that a device has
    stored since the flag was lowered, what the host prints is at every moment the first
    calls, in the order in which they got the mutex, each one intact. -/
theorem delivered_throughout {is : List (Action Core)} {os : List Unit} (hs : Start s)
    (hrun : run step s is = some (os, s')) (hkeep : EachStep step KeepsLanded s is) : Throughout step Delivered s is :=
  EachStep.throughout (fun s (h : ∃ done posted, Inv done posted s) => h.elim fun _ h => h.elim fun _ H => H.delivered)
    (fun _ _ _ _ H hk hst => inv_step H hk hst) is ⟨_, _, inv_start hs⟩ hkeep hrun

end System

/-- One core, an empty buffer. -/
def freshSystem : State Unit :=
  { buffer := ⟨0, 0, fun _ => 0⟩
    holder := none
    cores := fun _ => .idle
    stillRunning := true
    myBuffer := ⟨0, 0, fun _ => 0⟩
    host := .looping
    calls := []
    printed := []
    landed := [] }

theorem start_fresh : Start freshSystem := ⟨rfl, rfl, fun _ => rfl, rfl, rfl, rfl, rfl⟩

/-- A whole call that prints one character. -/
def printChar (c : Char) : List (Action Unit) :=
  .call () ⟨[chr c], fun _ => 0, fun _ => 0⟩ :: List.replicate 5 (.device ())

/-- The host reads, prints and lowers the flag. -/
def serve : List (Action Unit) := List.replicate (FIELDS + 3) .host

/-- Two cores, an empty buffer. -/
def twoCores : State Bool :=
  { buffer := ⟨0, 0, fun _ => 0⟩
    holder := none
    cores := fun _ => .idle
    stillRunning := true
    myBuffer := ⟨0, 0, fun _ => 0⟩
    host := .looping
    calls := []
    printed := []
    landed := [] }

theorem start_twoCores : Start twoCores := ⟨rfl, rfl, fun _ => rfl, rfl, rfl, rfl, rfl⟩

/-- One core prints a number. When the host has lowered the flag and copied back the first two bytes of
    the body, the other one prints `B`, in turns with the rest of the write-back. -/
def numberThenChar : List (Action Bool) :=
  .call false ⟨[chr '%', chr 'd'], fun i => BitVec.ofNat 8 (i + 1), fun _ => 0⟩ :: List.replicate 10 (.device false) ++
    List.replicate (FIELDS + 6) .host ++ .call true ⟨[chr 'B'], fun _ => 0, fun _ => 0⟩ ::
      (List.replicate 5 [.device true, .host]).flatten ++ List.replicate (2 * FIELDS) .host

theorem delivered_throughout_fresh : Throughout step Delivered twoCores numberThenChar := by
  have hrun : ((run step twoCores numberThenChar).map fun r => r.2.printed.map Printed.message) =
      some [[chr '%', chr 'd'], [chr 'B']] := by decide +kernel
  obtain ⟨⟨os, s'⟩, hrun, -⟩ := Option.map_eq_some_iff.mp hrun
  exact delivered_throughout start_twoCores hrun (by decide +kernel)

/-- The core prints `A`; when the host has just lowered the flag it prints `B`; the rest of
    the write-back ends the second message before its first character. -/
theorem a_write_back_empties_the_next_message :
    ¬ ∀ (s s' : State Unit) (is : List (Action Unit)) (os : List Unit), Start s → run step s is = some (os, s') →
      Delivered s' := by
  intro hall
  have hrun : ((run step freshSystem (printChar 'A' ++ serve ++ printChar 'B' ++ List.replicate FIELDS .host ++ serve)).map
      fun r => (r.2.printed.map Printed.message, r.2.calls.map Call.text)) =
      some ([[chr 'A'], []], [[chr 'A'], [chr 'B']]) := by decide +kernel
  obtain ⟨⟨os, s'⟩, hrun, he⟩ := Option.map_eq_some_iff.mp hrun
  have hmsg : s'.printed.map Printed.message = [[chr 'A'], []] := congrArg Prod.fst he
  have htext : s'.calls.map Call.text = [[chr 'A'], [chr 'B']] := congrArg Prod.snd he
  have hlen : s'.printed.length = 2 := by rw [← List.length_map Printed.message, hmsg]; rfl
  rw [(hall _ _ _ _ start_fresh hrun).messages, List.map_take, htext, hlen] at hmsg
  exact absurd hmsg (by decide)

end EDarts.Runtime.Print
