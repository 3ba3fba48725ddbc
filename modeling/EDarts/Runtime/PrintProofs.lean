/-
  EDarts.Runtime.PrintProofs — what of a print call's arguments reaches the host.

  Every lemma about a message goes along its `Format`: the device's loop records the
  letters (`copyMessage_format`), the host's loop reads one value for each of them
  (`process_format`), and from there on only the list of letters matters.

  - `copyArguments_eq`, `mem_copyArguments`: the device copies the argument bytes where
    they are in the variadic area, whatever the order of the letters.
  - `arguments_survive_iff`: the host reads every argument, whatever its value, exactly
    when no letter is `F`, no promoted `char` is before another argument, and the byte of
    `argTypes` past the letters is neither `s` nor `S`.
-/

import EDarts.Runtime.Print
import Mathlib.Data.List.GetD

namespace EDarts.Runtime.Print

open Lib

/-! ## The letters -/

/-- `F` is the one letter that the host does not know. -/
def hostSize (letter : Byte) (t : ArgType) : Nat := if letter = chr 'F' then 0 else t.size

theorem argType_cases {letter : Byte} {t : ArgType} (h : argType letter = some t) :
    (letter ∈ ['d', 'i'].map chr ∧ t = .int) ∨ (letter ∈ ['o', 'u', 'x', 'X'].map chr ∧ t = .unsigned) ∨
    (letter ∈ ['c', 'C'].map chr ∧ t = .char) ∨
    (letter ∈ ['e', 'E', 'f', 'F', 'g', 'G', 'a', 'A'].map chr ∧ t = .double) := by
  unfold argType at h
  by_cases h1 : letter ∈ ['d', 'i'].map chr
  · rw [if_pos h1] at h; exact .inl ⟨h1, (Option.some.inj h).symm⟩
  rw [if_neg h1] at h
  by_cases h2 : letter ∈ ['o', 'u', 'x', 'X'].map chr
  · rw [if_pos h2] at h; exact .inr (.inl ⟨h2, (Option.some.inj h).symm⟩)
  rw [if_neg h2] at h
  by_cases h3 : letter ∈ ['c', 'C'].map chr
  · rw [if_pos h3] at h; exact .inr (.inr (.inl ⟨h3, (Option.some.inj h).symm⟩))
  rw [if_neg h3] at h
  by_cases h4 : letter ∈ ['e', 'E', 'f', 'F', 'g', 'G', 'a', 'A'].map chr
  · rw [if_pos h4] at h; exact .inr (.inr (.inr ⟨h4, (Option.some.inj h).symm⟩))
  · rw [if_neg h4] at h; cases h

/-- A fact about every letter and its type is a fact about 16 pairs. -/
theorem forall_letter {P : Byte → ArgType → Prop} (hint : P (chr 'd') .int ∧ P (chr 'i') .int)
    (hunsigned : P (chr 'o') .unsigned ∧ P (chr 'u') .unsigned ∧ P (chr 'x') .unsigned ∧ P (chr 'X') .unsigned)
    (hchar : P (chr 'c') .char ∧ P (chr 'C') .char)
    (hdouble : P (chr 'e') .double ∧ P (chr 'E') .double ∧ P (chr 'f') .double ∧ P (chr 'F') .double ∧
      P (chr 'g') .double ∧ P (chr 'G') .double ∧ P (chr 'a') .double ∧ P (chr 'A') .double)
    {letter : Byte} {t : ArgType} (h : argType letter = some t) : P letter t := by
  rcases argType_cases h with ⟨hl, rfl⟩ | ⟨hl, rfl⟩ | ⟨hl, rfl⟩ | ⟨hl, rfl⟩ <;>
    simp only [List.map_cons, List.map_nil, List.mem_cons, List.not_mem_nil, or_false] at hl
  · rcases hl with rfl | rfl
    exacts [hint.1, hint.2]
  · obtain ⟨ho, hu, hx, hX⟩ := hunsigned
    rcases hl with rfl | rfl | rfl | rfl <;> assumption
  · rcases hl with rfl | rfl
    exacts [hchar.1, hchar.2]
  · obtain ⟨he, hE, hf, hF, hg, hG, ha, hA⟩ := hdouble
    rcases hl with rfl | rfl | rfl | rfl | rfl | rfl | rfl | rfl <;> assumption

/-- The device's table agrees with the types that are passed. -/
theorem typeSelector_eq {letter : Byte} {t : ArgType} (h : argType letter = some t) : TYPE_SELECTOR letter = t.size := by
  apply forall_letter (P := fun l t => TYPE_SELECTOR l = t.size) _ _ _ _ h
  · exact ⟨rfl, rfl⟩
  · exact ⟨rfl, rfl, rfl, rfl⟩
  · exact ⟨rfl, rfl⟩
  · exact ⟨rfl, rfl, rfl, rfl, rfl, rfl, rfl, rfl⟩

theorem letter_ne {letter : Byte} {t : ArgType} (h : argType letter = some t) :
    letter ≠ 0 ∧ letter ≠ chr '%' ∧ letter ≠ chr 's' ∧ letter ≠ chr 'S' := by
  apply forall_letter (P := fun l _ => l ≠ 0 ∧ l ≠ chr '%' ∧ l ≠ chr 's' ∧ l ≠ chr 'S') _ _ _ _ h <;> decide

/-- The host's table, and where it differs. -/
theorem transformParameter_eq (endian : Endian) {letter : Byte} {t : ArgType} (h : argType letter = some t)
    (m : Nat → Byte) (p : Nat) :
    TRANSFORM_PARAMETER endian letter m p =
      (if letter = chr 'F' then none else some (load endian t m p), p + hostSize letter t) := by
  apply forall_letter (P := fun l t => TRANSFORM_PARAMETER endian l m p =
    (if l = chr 'F' then none else some (load endian t m p), p + hostSize l t)) _ _ _ _ h
  · exact ⟨rfl, rfl⟩
  · exact ⟨rfl, rfl, rfl, rfl⟩
  · exact ⟨rfl, rfl⟩
  · exact ⟨rfl, rfl, rfl, rfl, rfl, rfl, rfl, rfl⟩

/-- `Format` says no more than that each `%` has a conversion letter behind it. -/
theorem format_iff (message : List Byte) : (∃ letters, Format message letters) ↔
    (∀ c ∈ message, c ≠ 0) ∧
      ∀ i : Nat, message[i]? = some (chr '%') → ∃ l t, message[i + 1]? = some l ∧ argType l = some t := by
  constructor
  · intro h
    obtain ⟨letters, hf⟩ := h
    induction hf with
    | nil => simp
    | text h0 hc _ ih =>
      refine ⟨List.forall_mem_cons.mpr ⟨h0, ih.1⟩, fun i hi => ?_⟩
      cases i with
      | zero => exact absurd (Option.some.inj hi) hc
      | succ i => exact ih.2 i hi
    | param ht _ ih =>
      obtain ⟨h0, hc, -, -⟩ := letter_ne ht
      refine ⟨List.forall_mem_cons.mpr ⟨by decide, List.forall_mem_cons.mpr ⟨h0, ih.1⟩⟩, fun i hi => ?_⟩
      match i with
      | 0 => exact ⟨_, _, rfl, ht⟩
      | 1 => exact absurd (Option.some.inj hi) hc
      | i + 2 => exact ih.2 i hi
  · -- two characters at a time, so the induction is on a bound of the length
    suffices h : ∀ (n : Nat) (message : List Byte), message.length ≤ n → (∀ c ∈ message, c ≠ 0) →
        (∀ i : Nat, message[i]? = some (chr '%') → ∃ l t, message[i + 1]? = some l ∧ argType l = some t) →
        ∃ letters, Format message letters from fun hm => h _ message (Nat.le_refl _) hm.1 hm.2
    intro n
    induction n with
    | zero =>
      intro message hn _ _
      obtain rfl : message = [] := List.length_eq_zero_iff.mp (by omega)
      exact ⟨[], .nil⟩
    | succ n ih =>
      intro message hn h0 hpct
      cases message with
      | nil => exact ⟨[], .nil⟩
      | cons c rest =>
        obtain ⟨hc0, h0⟩ := List.forall_mem_cons.mp h0
        rw [List.length_cons] at hn
        by_cases hc : c = chr '%'
        · obtain ⟨l, t, hl, ht⟩ := hpct 0 (congrArg some hc)
          cases rest with
          | nil => cases hl
          | cons l' rest =>
            obtain rfl : l' = l := Option.some.inj hl
            rw [List.length_cons] at hn
            obtain ⟨letters, hf⟩ := ih rest (by omega) (List.forall_mem_cons.mp h0).2 fun i hi => hpct (i + 2) hi
            exact ⟨l' :: letters, hc ▸ .param ht hf⟩
        · obtain ⟨letters, hf⟩ := ih rest (by omega) h0 fun i hi => hpct (i + 1) hi
          exact ⟨letters, .text hc0 hc hf⟩

/-! ## The device's loops -/

/-- The loop over a message copies it and records its letters. -/
theorem copyMessage_format {message letters : List Byte} (hf : Format message letters) :
    ∀ (charCount argCount : Nat) (argTypes : Nat → Byte), charCount + message.length ≤ MAX_NUM_CHARACTERS →
      argCount + letters.length ≤ MAX_NUM_ARGUMENTS →
      copyMessage message charCount argCount argTypes =
        ⟨(message.zipIdx charCount).map Prod.swap, charCount + message.length, argCount + letters.length,
          fun i => if i < argCount then argTypes i else letters.getD (i - argCount) (argTypes i)⟩ := by
  induction hf with
  | nil => intro charCount argCount argTypes _ _; simp [copyMessage]
  | @text c message letters h0 hc hf ih =>
    intro charCount argCount argTypes hlen hargs
    simp only [List.length_cons] at hlen
    rw [copyMessage, if_pos ⟨h0, by omega⟩, if_neg fun h => hc h.1, ih _ _ _ (by omega) hargs]
    simp only [List.zipIdx_cons, List.map_cons, Prod.swap_prod_mk, List.length_cons, Copied.mk.injEq, true_and, and_true]
    omega
  | @param letter message letters t ht hf ih =>
    intro charCount argCount argTypes hlen hargs
    obtain ⟨h0, hc, -, -⟩ := letter_ne ht
    simp only [List.length_cons] at hlen hargs
    rw [copyMessage, if_pos ⟨by decide, by omega⟩, if_pos ⟨rfl, by omega⟩, copyMessage, if_pos ⟨h0, by omega⟩,
      if_neg fun h => hc h.1, ih _ _ _ (by omega) (by omega)]
    simp only [List.zipIdx_cons, List.map_cons, Prod.swap_prod_mk, List.length_cons, List.headD_cons, Copied.mk.injEq,
      true_and]
    refine ⟨by omega, by omega, funext fun i => ?_⟩
    rcases Nat.lt_trichotomy i argCount with hi | rfl | hi
    · rw [if_pos (by omega), if_pos hi, Function.update_of_ne (by omega)]
    · rw [if_pos (by omega), if_neg (by omega), Function.update_self, Nat.sub_self, List.getD_cons_zero]
    · obtain ⟨k, rfl⟩ : ∃ k, i = argCount + 1 + k := ⟨i - (argCount + 1), by omega⟩
      rw [if_neg (by omega), if_neg (by omega), Function.update_of_ne (by omega), Nat.add_sub_cancel_left,
        show argCount + 1 + k - argCount = k + 1 by omega, List.getD_cons_succ]

/-- Without an `s`, the loop over the letters copies the area from its start on, at least
    as many bytes as the letters ask for or as `arguments` has. -/
theorem copyArguments_eq {argTypes : Nat → Byte} (argStart : Nat → Byte) : ∀ (k charCount : Nat),
    (∀ i < k, argTypes i ≠ chr 's' ∧ argTypes i ≠ chr 'S') →
    ∃ T, copyArguments argTypes argStart k charCount =
        (List.range T).map (fun i => (ARGUMENTS + (charCount + i), argStart (charCount + i))) ∧
      (ARGUMENTS_SIZE ≤ charCount + T ∨ ((List.range k).map fun i => TYPE_SELECTOR (argTypes i)).sum ≤ T) := by
  intro k
  induction k with
  | zero => intro charCount _; exact ⟨0, rfl, .inr (Nat.le_refl 0)⟩
  | succ k ih =>
    intro charCount hs
    rw [copyArguments]
    by_cases hc : charCount < ARGUMENTS_SIZE
    · have harg : copyArgument (argTypes k) argStart charCount = (List.range (TYPE_SELECTOR (argTypes k))).map
          fun i => (ARGUMENTS + (charCount + i), argStart (charCount + i)) :=
        if_neg fun h => h.elim (hs k (by omega)).1 (hs k (by omega)).2
      obtain ⟨T, heq, hT⟩ := ih (charCount + TYPE_SELECTOR (argTypes k)) fun i hi => hs i (by omega)
      refine ⟨TYPE_SELECTOR (argTypes k) + T, ?_, ?_⟩
      · simp only [if_pos hc, harg, List.length_map, List.length_range, heq, List.range_add, List.map_append,
          List.map_map, Function.comp_def, Nat.add_assoc]
      · rw [List.range_succ, List.map_append, List.sum_append, List.map_singleton, List.sum_singleton]
        omega
    · exact ⟨0, by rw [if_neg hc]; rfl, .inl (by omega)⟩

/-- Whatever the letters, a cell gets its byte of the area or 0. -/
theorem mem_copyArguments {argTypes argStart : Nat → Byte} {x : Nat × Byte} : ∀ {k charCount : Nat},
    x ∈ copyArguments argTypes argStart k charCount →
    ∃ i, charCount ≤ i ∧ x.1 = ARGUMENTS + i ∧ (x.2 = argStart i ∨ x.2 = 0) := by
  intro k
  induction k with
  | zero => intro charCount h; cases h
  | succ k ih =>
    intro charCount h
    rw [copyArguments] at h
    by_cases hc : charCount < ARGUMENTS_SIZE
    · rw [if_pos hc] at h
      rcases List.mem_append.mp h with h | h
      · unfold copyArgument at h
        by_cases hs : argTypes k = chr 's' ∨ argTypes k = chr 'S'
        · rw [if_pos hs, List.mem_singleton] at h
          exact ⟨charCount, Nat.le_refl _, by rw [h], .inr (by rw [h])⟩
        · rw [if_neg hs] at h
          obtain ⟨i, -, rfl⟩ := List.mem_map.mp h
          exact ⟨charCount + i, by omega, rfl, .inl rfl⟩
      · obtain ⟨i, hi, hx⟩ := ih h
        exact ⟨i, by omega, hx⟩
    · rw [if_neg hc] at h; cases h

/-! ## The host's loop -/

/-- What the host reads for the letters, from `p` on. -/
def reads (endian : Endian) (m : Nat → Byte) : List Byte → Nat → List (Option Value)
  | [], _ => []
  | letter :: letters, p =>
    let r := TRANSFORM_PARAMETER endian letter m p
    r.1 :: reads endian m letters r.2

theorem process_format (endian : Endian) {message letters : List Byte} (hf : Format message letters) {body : Nat → Byte} :
    ∀ (fuel charCount p : Nat), (∀ i ≤ message.length, body (charCount + i) = message.getD i 0) →
      charCount + message.length < MAX_NUM_CHARACTERS → message.length ≤ fuel →
      valuesRead (process endian body fuel charCount p) = reads endian body letters p := by
  induction hf with
  | nil =>
    intro fuel charCount p hbody _ _
    have h0 : body charCount = 0 := hbody 0 (Nat.le_refl 0)
    cases fuel with
    | zero => rfl
    | succ fuel => rw [process, if_neg fun h => h.1 h0]; rfl
  | @text c message letters h0 hc hf ih =>
    intro fuel charCount p hbody hlen hfuel
    simp only [List.length_cons] at hbody hlen hfuel
    obtain ⟨fuel, rfl⟩ : ∃ f, fuel = f + 1 := ⟨fuel - 1, by omega⟩
    have hc0 : body charCount = c := hbody 0 (Nat.zero_le _)
    rw [process, hc0, if_pos ⟨h0, by omega⟩, if_neg hc]
    refine ih fuel (charCount + 1) p (fun i hi => ?_) (by omega) (by omega)
    rw [show charCount + 1 + i = charCount + (i + 1) by omega, hbody (i + 1) (by omega), List.getD_cons_succ]
  | @param letter message letters t ht hf ih =>
    intro fuel charCount p hbody hlen hfuel
    simp only [List.length_cons] at hbody hlen hfuel
    obtain ⟨fuel, rfl⟩ : ∃ f, fuel = f + 1 := ⟨fuel - 1, by omega⟩
    have hc0 : body charCount = chr '%' := hbody 0 (Nat.zero_le _)
    have hc1 : body (charCount + 1) = letter := hbody 1 (by omega)
    rw [process, hc0, if_pos ⟨by decide, by omega⟩, if_pos rfl, hc1, reads]
    refine congrArg _ (ih fuel (charCount + 2) _ (fun i hi => ?_) (by omega) (by omega))
    rw [show charCount + 2 + i = charCount + (i + 2) by omega, hbody (i + 2) (by omega), List.getD_cons_succ,
      List.getD_cons_succ]

/-! ## The buffer after a call -/

theorem Format.letter {message letters : List Byte} (hf : Format message letters) :
    ∀ l ∈ letters, ∃ t, argType l = some t := by
  induction hf with
  | nil => intro l hl; cases hl
  | text _ _ _ ih => exact ih
  | param ht _ ih =>
    intro l hl
    rcases List.mem_cons.mp hl with rfl | hl
    · exact ⟨_, ht⟩
    · exact ih l hl

theorem argBytes_cons {letter : Byte} {t : ArgType} (ht : argType letter = some t) (letters : List Byte) :
    argBytes (letter :: letters) = t.size + argBytes letters := by
  simp [argBytes, ht]

theorem sum_typeSelector : ∀ {letters : List Byte}, (∀ l ∈ letters, ∃ t, argType l = some t) →
    (letters.map TYPE_SELECTOR).sum = argBytes letters
  | [], _ => rfl
  | l :: letters, h => by
    obtain ⟨t, ht⟩ := h l List.mem_cons_self
    rw [List.map_cons, List.sum_cons, argBytes_cons ht, typeSelector_eq ht,
      sum_typeSelector fun x hx => h x (List.mem_cons_of_mem l hx)]

theorem mem_messageStores {message : List Byte} {x : Nat × Byte} :
    x ∈ (message.zipIdx 0).map Prod.swap ↔ message[x.1]? = some x.2 := by
  constructor
  · intro h
    obtain ⟨y, hy, rfl⟩ := List.mem_map.mp h
    exact List.mem_zipIdx_iff_getElem?.mp hy
  · exact fun h => List.mem_map.mpr ⟨(x.2, x.1), List.mem_zipIdx_iff_getElem?.mpr h, rfl⟩

section Body

variable (call : Call) {letters : List Byte} (hf : Format call.message letters)
  (hlen : call.message.length < MAX_NUM_CHARACTERS) (hargs : letters.length ≤ MAX_NUM_ARGUMENTS)

include hf hlen hargs

theorem stores_format : call.stores = (call.message.zipIdx 0).map Prod.swap ++ [(call.message.length, 0)] ++
    copyArguments (fun i => letters.getD i (call.argTypes i)) call.argStart (letters.length + 1) 0 := by
  have hne : call.message.length ≠ MAX_NUM_CHARACTERS := by omega
  simp only [Call.stores, copyMessage_format hf 0 0 call.argTypes (by omega) (by omega), Nat.zero_add,
    Nat.not_lt_zero, if_false, Nat.sub_zero, endMessage, if_neg hne]

theorem mem_stores {x : Nat × Byte} (hx : x ∈ call.stores) :
    (x.1 ≤ call.message.length ∧ x.2 = call.message.getD x.1 0) ∨
    x ∈ copyArguments (fun i => letters.getD i (call.argTypes i)) call.argStart (letters.length + 1) 0 := by
  rw [stores_format call hf hlen hargs, List.mem_append, List.mem_append, mem_messageStores, List.mem_singleton] at hx
  rcases hx with (hx | rfl) | hx
  · obtain ⟨hi, hx⟩ := List.getElem?_eq_some_iff.mp hx
    exact .inl ⟨by omega, by rw [← hx, List.getD_eq_getElem _ _ hi]⟩
  · exact .inl ⟨Nat.le_refl _, (List.getD_eq_default _ _ (Nat.le_refl _)).symm⟩
  · exact .inr hx

/-- The message and its 0 are at the head. -/
theorem body_message (m : Nat → Byte) {i : Nat} (hi : i ≤ call.message.length) :
    applyStores m call.stores i = call.message.getD i 0 := by
  refine applyStores_eq ?_ fun x hx he => ?_
  · rw [stores_format call hf hlen hargs]
    refine ⟨(i, call.message.getD i 0), List.mem_append_left _ (List.mem_append.mpr ?_), rfl⟩
    by_cases h : i < call.message.length
    · exact .inl (mem_messageStores.mpr (by rw [List.getD_eq_getElem _ _ h, List.getElem?_eq_getElem h]))
    · obtain rfl : i = call.message.length := by omega
      exact .inr (List.mem_singleton.mpr (by rw [List.getD_eq_default _ _ (Nat.le_refl _)]))
  · rcases mem_stores call hf hlen hargs hx with ⟨-, h⟩ | h
    · rw [h, he]
    · obtain ⟨k, -, hk, -⟩ := mem_copyArguments h
      unfold ARGUMENTS at hk
      omega

theorem body_argument_cases (m : Nat → Byte) (j : Nat) :
    applyStores m call.stores (ARGUMENTS + j) = call.argStart j ∨ applyStores m call.stores (ARGUMENTS + j) = 0 ∨
      applyStores m call.stores (ARGUMENTS + j) = m (ARGUMENTS + j) := by
  rcases applyStores_cases m call.stores (ARGUMENTS + j) with h | ⟨x, hx, he, h⟩
  · exact .inr (.inr h)
  · rw [h]
    rcases mem_stores call hf hlen hargs hx with ⟨hi, -⟩ | hx
    · unfold ARGUMENTS at he
      omega
    · obtain ⟨i, -, hi, hv⟩ := mem_copyArguments hx
      obtain rfl : i = j := by omega
      exact hv.elim .inl fun hv => .inr (.inl hv)

/-- The letter past the last is `s`: the first argument byte is overwritten. -/
theorem body_stale (m : Nat → Byte)
    (hs : call.argTypes letters.length = chr 's' ∨ call.argTypes letters.length = chr 'S') :
    applyStores m call.stores ARGUMENTS = 0 := by
  have hfirst : copyArguments (fun i => letters.getD i (call.argTypes i)) call.argStart (letters.length + 1) 0 =
      (ARGUMENTS, 0) :: copyArguments (fun i => letters.getD i (call.argTypes i)) call.argStart letters.length 1 := by
    rw [copyArguments, if_pos (by decide), List.getD_eq_default _ _ (Nat.le_refl _), copyArgument, if_pos hs]
    rfl
  refine applyStores_eq ⟨(ARGUMENTS, 0), ?_, rfl⟩ fun x hx he => ?_
  · rw [stores_format call hf hlen hargs, hfirst]
    exact List.mem_append_right _ List.mem_cons_self
  · rcases mem_stores call hf hlen hargs hx with ⟨hi, -⟩ | hx
    · unfold ARGUMENTS at he
      omega
    · rw [hfirst] at hx
      rcases List.mem_cons.mp hx with rfl | hx
      · rfl
      · obtain ⟨i, hi, h, -⟩ := mem_copyArguments hx
        omega

/-- Otherwise the bytes of the arguments are at the start of `arguments`. -/
theorem body_argument (m : Nat → Byte)
    (hs : call.argTypes letters.length ≠ chr 's' ∧ call.argTypes letters.length ≠ chr 'S') {j : Nat}
    (hj : j < ARGUMENTS_SIZE) (hb : j < argBytes letters) :
    applyStores m call.stores (ARGUMENTS + j) = call.argStart j := by
  have hletters : ∀ i < letters.length + 1, letters.getD i (call.argTypes i) ≠ chr 's' ∧
      letters.getD i (call.argTypes i) ≠ chr 'S' := by
    intro i hi
    by_cases h : i < letters.length
    · rw [List.getD_eq_getElem _ _ h]
      obtain ⟨t, ht⟩ := hf.letter _ (List.getElem_mem h)
      exact (letter_ne ht).2.2
    · obtain rfl : i = letters.length := by omega
      rw [List.getD_eq_default _ _ (Nat.le_refl _)]
      exact hs
  obtain ⟨T, heq, hT⟩ := copyArguments_eq call.argStart (letters.length + 1) 0 hletters
  have hsum : argBytes letters ≤ ((List.range (letters.length + 1)).map fun i =>
      TYPE_SELECTOR (letters.getD i (call.argTypes i))).sum := by
    have hmap : (List.range letters.length).map (fun i => TYPE_SELECTOR (letters.getD i (call.argTypes i))) =
        letters.map TYPE_SELECTOR := by
      apply List.ext_getElem (by simp)
      intro i h1 h2
      rw [List.length_map] at h2
      rw [List.getElem_map, List.getElem_map, List.getElem_range, List.getD_eq_getElem _ _ h2]
    rw [List.range_succ, List.map_append, List.sum_append, hmap, sum_typeSelector hf.letter]
    omega
  refine applyStores_eq ⟨(ARGUMENTS + j, call.argStart j), ?_, rfl⟩ fun x hx he => ?_
  · rw [stores_format call hf hlen hargs, heq]
    refine List.mem_append_right _ (List.mem_map.mpr ⟨j, List.mem_range.mpr (by omega), ?_⟩)
    rw [Nat.zero_add]
  · rcases mem_stores call hf hlen hargs hx with ⟨hi, -⟩ | hx
    · unfold ARGUMENTS at he
      omega
    · rw [heq] at hx
      obtain ⟨i, -, rfl⟩ := List.mem_map.mp hx
      obtain rfl : i = j := by omega
      rw [Nat.zero_add]

end Body

/-! ## Values and their bytes -/

@[simp] theorem Value.bytes_length (endian : Endian) (v : Value) : (v.bytes endian).length = v.type.size := by
  simp [bytes]

theorem Value.bytes_ofBytes (endian : Endian) (t : ArgType) {bs : List Byte} (h : bs.length = t.size) :
    (Value.mk t (BitVec.ofNat _ (endian.ofBytes bs))).bytes endian = bs := by
  have hlt := endian.ofBytes_lt bs
  have hpow : (256 : Nat) ^ bs.length = 2 ^ (8 * t.size) := by rw [h, Nat.pow_mul]
  rw [bytes, BitVec.toNat_ofNat, Nat.mod_eq_of_lt (hpow ▸ hlt), endian.toBytes_ofBytes h]

/-- A load gives a value exactly when its bytes are in the memory. -/
theorem load_eq_iff {endian : Endian} {v : Value} {m : Nat → Byte} {p : Nat} :
    load endian v.type m p = v ↔ cells m p v.type.size = v.bytes endian := by
  constructor
  · intro h
    rw [← Value.bytes_ofBytes endian v.type (cells_length m p v.type.size)]
    exact congrArg (Value.bytes endian) h
  · intro h
    obtain ⟨t, x⟩ := v
    simp only [load, Value.bytes] at h ⊢
    have hpow : (256 : Nat) ^ t.size = 2 ^ (8 * t.size) := by rw [Nat.pow_mul]
    rw [h, endian.ofBytes_toBytes, hpow, Nat.mod_eq_of_lt x.isLt, BitVec.ofNat_toNat, BitVec.setWidth_eq]

/-- The bytes that an argument takes in the variadic area. -/
def ArgType.promotedSize (t : ArgType) : Nat := if t = .char then 4 else t.size

@[simp] theorem Value.promoted_length (endian : Endian) (signed : Bool) (v : Value) :
    (v.promoted endian signed).length = v.type.promotedSize := by
  unfold promoted ArgType.promotedSize
  by_cases h : v.type = .char
  · rw [if_pos h, if_pos h, Endian.toBytes_length]
  · rw [if_neg h, if_neg h, bytes_length]

theorem ArgType.size_le_promotedSize (t : ArgType) : t.size ≤ t.promotedSize := by cases t <;> decide

theorem variadic_head (endian : Endian) (signed : Bool) (a : Value) (as : List Value) (beyond : Nat → Byte) {i : Nat}
    (hi : i < a.type.promotedSize) :
    variadic endian signed (a :: as) beyond i = (a.promoted endian signed).getD i 0 := by
  have hl : i < (a.promoted endian signed).length := by rw [Value.promoted_length]; exact hi
  rw [variadic, List.flatMap_cons, List.getD_append _ _ _ _ hl, List.getD_eq_getElem _ _ hl, List.getD_eq_getElem _ _ hl]

theorem variadic_tail (endian : Endian) (signed : Bool) (a : Value) (as : List Value) (beyond : Nat → Byte) (i : Nat) :
    variadic endian signed (a :: as) beyond (a.type.promotedSize + i) =
      variadic endian signed as (fun i => beyond (a.type.promotedSize + i)) i := by
  rw [variadic, List.flatMap_cons, List.getD_append_right _ _ _ _ (by rw [Value.promoted_length]; omega),
    Value.promoted_length, Nat.add_sub_cancel_left]
  rfl

theorem low_byte_signExtend (c : BitVec 8) : BitVec.ofNat 8 (c.signExtend 32).toNat = BitVec.ofNat 8 c.toNat := by
  apply BitVec.eq_of_toNat_eq
  have hc := c.isLt
  rw [BitVec.toNat_ofNat, BitVec.toNat_ofNat, BitVec.toNat_signExtend, BitVec.toNat_setWidth]
  by_cases h : c.msb = true
  · rw [if_pos h]; omega
  · rw [if_neg h]; omega

/-- Where a value's own bytes begin its area: always, but for a `char` on a big-endian
    machine. -/
theorem promoted_getD {endian : Endian} (signed : Bool) {v : Value} (h : v.type = .char → endian = .little) {i : Nat}
    (hi : i < v.type.size) : (v.promoted endian signed).getD i 0 = (v.bytes endian).getD i 0 := by
  by_cases hc : v.type = .char
  · obtain ⟨t, x⟩ := v
    obtain rfl : t = .char := hc
    obtain rfl := h rfl
    obtain rfl : i = 0 := by simpa [ArgType.size] using hi
    simp only [Value.promoted, Value.bytes, Endian.toBytes, ArgType.size, toLE, if_true, List.getD_cons_zero]
    cases signed with
    | true => exact low_byte_signExtend x
    | false => rfl
  · rw [Value.promoted, if_neg hc]

/-! ## The host reads the arguments -/

/-- Whatever the arguments, the call returns, the host prints, and it reads for each
    conversion the argument passed for it. -/
def Survives (endian : Endian) (signed : Bool) (message letters : List Byte) (argTypes : Nat → Byte) : Prop :=
  ∀ (args : List Value) (beyond : Nat → Byte) (b : PrintBuffer), Passed letters args → b.sendPrintInstruction = 0 →
    ∃ b' pieces, eDartsPrint ⟨message, variadic endian signed args beyond, argTypes⟩ b = some b' ∧
      printingServer endian b' = some pieces ∧ valuesRead pieces = args.map some

/-- Where no `char` may be: before another argument, and on a big-endian machine
    anywhere, since there the byte read is not the one that holds the `char`. -/
def charFree : Endian → List Byte → List Byte
  | .little, letters => letters.dropLast
  | .big, letters => letters

/-- The two tables and the variadic area agree on the offset of every argument, and
    `stale`, the byte of `argTypes` after the letters, does not overwrite the first. -/
structure OffsetsAgree (endian : Endian) (letters : List Byte) (stale : Byte) : Prop where
  noF : chr 'F' ∉ letters
  char : ∀ letter ∈ charFree endian letters, argType letter ≠ some .char
  stale : letters ≠ [] → stale ≠ chr 's' ∧ stale ≠ chr 'S'

theorem printed_reads (endian : Endian) (call : Call) {letters : List Byte} (hf : Format call.message letters)
    (hlen : call.message.length < MAX_NUM_CHARACTERS) (hargs : letters.length ≤ MAX_NUM_ARGUMENTS) {b : PrintBuffer}
    (hb : b.sendPrintInstruction = 0) :
    ∃ b' pieces, eDartsPrint call b = some b' ∧ printingServer endian b' = some pieces ∧
      valuesRead pieces = reads endian (applyStores b.body call.stores) letters ARGUMENTS := by
  refine ⟨_, _, if_neg (by rw [hb]; decide), if_pos rfl, process_format endian hf _ 0 _ (fun i hi => ?_) (by omega) ?_⟩
  · rw [Nat.zero_add]
    exact body_message call hf hlen hargs b.body hi
  · exact Nat.le_of_lt hlen

theorem reads_args {endian : Endian} {signed : Bool} {m : Nat → Byte} : ∀ {letters : List Byte} {args : List Value}
    (beyond : Nat → Byte) {p : Nat}, Passed letters args → (∀ l ∈ letters, ∃ t, argType l = some t) →
    chr 'F' ∉ letters →
    (∀ l ∈ charFree endian letters, argType l ≠ some .char) →
    (∀ i < argBytes letters, m (p + i) = variadic endian signed args beyond i) →
    reads endian m letters p = args.map some := by
  intro letters
  induction letters with
  | nil =>
    intro args beyond p hp _ _ _ _
    obtain rfl : args = [] := by simpa [Passed] using hp
    rfl
  | cons l letters ih =>
    intro args beyond p hp htypes hF hchar hm
    cases args with
    | nil => simp [Passed] at hp
    | cons a as =>
      obtain ⟨ha, hp⟩ : some a.type = argType l ∧ Passed letters as := by
        simpa [Passed] using hp
      have hlF : l ≠ chr 'F' := fun h => hF (h ▸ List.mem_cons_self)
      rw [argBytes_cons ha.symm] at hm
      have hsize := a.type.size_le_promotedSize
      have hlittle : a.type = .char → endian = .little := by
        intro hc
        cases endian with
        | little => rfl
        | big => exact absurd (hc ▸ ha.symm) (hchar l List.mem_cons_self)
      have hload : load endian a.type m p = a := by
        refine load_eq_iff.mpr (List.ext_getElem (by simp) fun i h1 h2 => ?_)
        rw [Value.bytes_length] at h2
        rw [cells_getElem, hm i (by omega), variadic_head _ _ _ _ _ (by omega), promoted_getD signed hlittle h2,
          List.getD_eq_getElem]
      simp only [reads, transformParameter_eq endian ha.symm, if_neg hlF, hostSize, hload, List.map_cons]
      apply congrArg _
      cases letters with
      | nil =>
        obtain rfl : as = [] := by simpa [Passed] using hp
        rfl
      | cons l' letters =>
        have hnc : a.type ≠ .char := by
          intro hc
          obtain rfl := hlittle hc
          exact hchar l List.mem_cons_self (hc ▸ ha.symm)
        have hsame : a.type.promotedSize = a.type.size := if_neg hnc
        refine ih (fun i => beyond (a.type.promotedSize + i)) hp (fun x hx => htypes x (List.mem_cons_of_mem l hx))
          (fun h => hF (List.mem_cons_of_mem l h)) ?_ fun i hi => ?_
        · cases endian with
          | little => exact fun x hx => hchar x (List.mem_cons_of_mem l hx)
          | big => exact fun x hx => hchar x (List.mem_cons_of_mem l hx)
        · rw [Nat.add_assoc, hm _ (by omega), ← hsame, variadic_tail]

/-! ## Where it does not -/

def zeroValue (t : ArgType) : Value := ⟨t, 0⟩

/-- The value whose first byte is 1 and whose other bytes are 0. -/
def unitValue (endian : Endian) (t : ArgType) : Value :=
  ⟨t, BitVec.ofNat _ (endian.ofBytes (1 :: List.replicate (t.size - 1) 0))⟩

/-- An argument list of zeros. -/
def zeros (letters : List Byte) : List Value := letters.map fun l => zeroValue ((argType l).getD .int)

def hostBytes (letters : List Byte) : Nat := (letters.map fun l => (argType l).elim 0 (hostSize l)).sum

def promotedBytes (letters : List Byte) : Nat :=
  (letters.map fun l => ((argType l).getD .int).promotedSize).sum

theorem unitValue_bytes (endian : Endian) (t : ArgType) :
    (unitValue endian t).bytes endian = 1 :: List.replicate (t.size - 1) 0 :=
  Value.bytes_ofBytes endian t (by cases t <;> rfl)

theorem load_unitValue {endian : Endian} {t : ArgType} {m : Nat → Byte} {p : Nat}
    (h : load endian t m p = unitValue endian t) : m p = 1 := by
  have hbytes : cells m p t.size = 1 :: List.replicate (t.size - 1) 0 := by
    rw [← unitValue_bytes endian t]
    exact (load_eq_iff (v := unitValue endian t)).mp h
  obtain ⟨k, hk⟩ : ∃ k, t.size = k + 1 := by cases t <;> exact ⟨_, rfl⟩
  rw [hk, cells, List.range_succ_eq_map] at hbytes
  exact (List.cons.inj hbytes).1

theorem unitValue_big_char (signed : Bool) : ((unitValue .big .char).promoted .big signed).getD 0 0 = 0 := by
  cases signed <;> decide

theorem toBytes_zero (endian : Endian) (k : Nat) : endian.toBytes k 0 = List.replicate k 0 := by
  have hle : toLE k 0 = List.replicate k 0 := by
    induction k with
    | zero => rfl
    | succ k ih => simp [toLE, ih, List.replicate_succ]
  cases endian with
  | little => exact hle
  | big => rw [Endian.toBytes, hle, List.reverse_replicate]

theorem zeroValue_promoted (endian : Endian) (signed : Bool) (t : ArgType) :
    (zeroValue t).promoted endian signed = List.replicate t.promotedSize 0 := by
  unfold Value.promoted ArgType.promotedSize
  by_cases h : t = .char
  · subst h
    cases signed <;> cases endian <;> rfl
  · rw [if_neg (show ¬ (zeroValue t).type = .char from h), if_neg h]
    simp [Value.bytes, zeroValue, toBytes_zero]

theorem zeros_promoted (endian : Endian) (signed : Bool) (letters : List Byte) :
    (zeros letters).flatMap (Value.promoted endian signed) = List.replicate (promotedBytes letters) 0 := by
  induction letters with
  | nil => rfl
  | cons l letters ih =>
    simp only [zeros, List.map_cons, List.flatMap_cons, zeroValue_promoted, promotedBytes, List.sum_cons] at ih ⊢
    rw [ih, List.replicate_append_replicate]

/-- Between zeros, only one argument's bytes are not 0. -/
theorem variadic_zeros {endian : Endian} {signed : Bool} {pre post : List Byte} {v : Value} {i : Nat}
    (hi : i ≤ promotedBytes pre) (h : variadic endian signed (zeros pre ++ v :: zeros post) (fun _ => 0) i ≠ 0) :
    i = promotedBytes pre ∧ (v.promoted endian signed).getD 0 0 ≠ 0 := by
  have hpos : 0 < v.type.promotedSize := by cases v.type <;> decide
  rw [variadic, List.flatMap_append, List.flatMap_cons, zeros_promoted] at h
  by_cases hlt : i < promotedBytes pre
  · rw [List.getD_append _ _ _ _ (by rw [List.length_replicate]; exact hlt), List.getD_replicate _ hlt] at h
    exact absurd rfl h
  · obtain rfl : i = promotedBytes pre := by omega
    rw [List.getD_append_right _ _ _ _ (Nat.le_of_eq List.length_replicate), List.length_replicate, Nat.sub_self,
      List.getD_append _ _ _ _ (by rw [Value.promoted_length]; exact hpos)] at h
    exact ⟨rfl, h⟩

theorem hostBytes_le {letters : List Byte} (h : ∀ l ∈ letters, ∃ t, argType l = some t) :
    hostBytes letters ≤ promotedBytes letters := by
  induction letters with
  | nil => exact Nat.le_refl 0
  | cons l letters ih =>
    obtain ⟨t, ht⟩ := h l List.mem_cons_self
    have ih := ih fun x hx => h x (List.mem_cons_of_mem l hx)
    have hsize := t.size_le_promotedSize
    have hl : hostSize l t ≤ t.size := by unfold hostSize; split <;> omega
    simp only [hostBytes, promotedBytes, List.map_cons, List.sum_cons, ht, Option.elim_some, Option.getD_some] at ih ⊢
    omega

theorem reads_append (endian : Endian) (m : Nat → Byte) {pre : List Byte} (post : List Byte)
    (h : ∀ l ∈ pre, ∃ t, argType l = some t) (p : Nat) :
    reads endian m (pre ++ post) p = reads endian m pre p ++ reads endian m post (p + hostBytes pre) := by
  induction pre generalizing p with
  | nil => rfl
  | cons l pre ih =>
    obtain ⟨t, ht⟩ := h l List.mem_cons_self
    simp only [List.cons_append, reads, transformParameter_eq endian ht, ih fun x hx => h x (List.mem_cons_of_mem l hx),
      hostBytes, List.map_cons, List.sum_cons, ht, Option.elim_some, Nat.add_assoc]

theorem reads_length (endian : Endian) (m : Nat → Byte) (letters : List Byte) (p : Nat) :
    (reads endian m letters p).length = letters.length := by
  induction letters generalizing p with
  | nil => rfl
  | cons l letters ih => simp [reads, ih]

/-- What survival says about the letter after `pre`, by an argument there whose first byte
    is 1 while everything around it is 0. -/
theorem Survives.at_letter {endian : Endian} {signed : Bool} {message pre post : List Byte} {letter : Byte} {t : ArgType}
    {argTypes : Nat → Byte} (hs : Survives endian signed message (pre ++ letter :: post) argTypes)
    (hf : Format message (pre ++ letter :: post)) (hlen : message.length < MAX_NUM_CHARACTERS)
    (hargs : (pre ++ letter :: post).length ≤ MAX_NUM_ARGUMENTS) (ht : argType letter = some t) :
    letter ≠ chr 'F' ∧ hostBytes pre = promotedBytes pre ∧ (t = .char → endian = .little) ∧
      (pre = [] → argTypes (pre ++ letter :: post).length ≠ chr 's' ∧ argTypes (pre ++ letter :: post).length ≠ chr 'S') := by
  have htypes := hf.letter
  have hzeros : ∀ letters, (∀ l ∈ letters, ∃ t, argType l = some t) →
      (zeros letters).map (fun v => some v.type) = letters.map argType := by
    intro letters h
    rw [zeros, List.map_map]
    apply List.map_congr_left
    intro l hl
    obtain ⟨t, ht⟩ := h l hl
    simp only [Function.comp_apply, ht, Option.getD_some, zeroValue]
  have hpassed : Passed (pre ++ letter :: post) (zeros pre ++ unitValue endian t :: zeros post) := by
    simp only [Passed, List.map_append, List.map_cons, hzeros pre fun l hl => htypes l (List.mem_append_left _ hl),
      hzeros post fun l hl => htypes l (List.mem_append_right _ (List.mem_cons_of_mem _ hl)), ht, unitValue]
  let call : Call := ⟨message, variadic endian signed (zeros pre ++ unitValue endian t :: zeros post) fun _ => 0, argTypes⟩
  obtain ⟨b', pieces, hprint, hserve, hread⟩ := hs _ (fun _ => 0) ⟨0, 0, fun _ => 0⟩ hpassed rfl
  obtain ⟨b₁, pieces₁, hprint₁, hserve₁, hread₁⟩ := printed_reads endian call hf hlen hargs
    (b := ⟨0, 0, fun _ => 0⟩) rfl
  obtain rfl : b' = b₁ := Option.some.inj (hprint.symm.trans hprint₁)
  obtain rfl : pieces = pieces₁ := Option.some.inj (hserve.symm.trans hserve₁)
  rw [hread, reads_append endian _ _ fun l hl => htypes l (List.mem_append_left _ hl), List.map_append] at hread₁
  obtain ⟨-, hread₁⟩ := List.append_inj hread₁ (by simp [reads_length, zeros])
  simp only [reads, transformParameter_eq endian ht, List.map_cons, List.cons.injEq] at hread₁
  have hF : letter ≠ chr 'F' := by
    intro h
    rw [if_pos h] at hread₁
    cases hread₁.1
  rw [if_neg hF] at hread₁
  -- the byte read is 1, so it is a byte of the area, and the only one that is not 0
  have hone := load_unitValue (Option.some.inj hread₁.1).symm
  have hcell : call.argStart (hostBytes pre) = 1 := by
    rcases body_argument_cases call hf hlen hargs (fun _ => 0) (hostBytes pre) with h | h | h
    · rw [← h, hone]
    · rw [hone] at h; exact absurd h (by decide)
    · rw [hone] at h; exact absurd h (by decide)
  obtain ⟨hoff, hpos⟩ := variadic_zeros (hostBytes_le fun l hl => htypes l (List.mem_append_left _ hl))
    (by rw [show variadic _ _ _ _ _ = 1 from hcell]; decide)
  refine ⟨hF, hoff, fun hc => ?_, fun hpre => ?_⟩
  · subst hc
    cases endian with
    | little => rfl
    | big => exact absurd (unitValue_big_char signed) hpos
  · subst hpre
    apply not_or.mp
    intro hstale
    have h0 := body_stale call hf hlen hargs (fun _ => 0) hstale
    rw [show hostBytes [] = 0 from rfl, Nat.add_zero, h0] at hone
    exact absurd hone (by decide)

/-- Two adjacent letters: the first one's argument has the size that the host thinks. -/
theorem Survives.same_size {endian : Endian} {signed : Bool} {message pre post : List Byte} {l l' : Byte} {t : ArgType}
    {argTypes : Nat → Byte} (hs : Survives endian signed message (pre ++ l :: l' :: post) argTypes)
    (hf : Format message (pre ++ l :: l' :: post)) (hlen : message.length < MAX_NUM_CHARACTERS)
    (hargs : (pre ++ l :: l' :: post).length ≤ MAX_NUM_ARGUMENTS) (ht : argType l = some t) : t ≠ .char := by
  obtain ⟨t', ht'⟩ := hf.letter l' (List.mem_append_right _ (List.mem_cons_of_mem _ List.mem_cons_self))
  obtain ⟨hF, hpre, -⟩ := hs.at_letter hf hlen hargs ht
  rw [List.append_cons] at hs hf hargs
  obtain ⟨-, hnext, -⟩ := hs.at_letter hf hlen hargs ht'
  simp only [hostBytes, promotedBytes, List.map_append, List.sum_append, List.map_cons, List.map_nil, List.sum_cons,
    List.sum_nil, ht, Option.elim_some, Option.getD_some, hostSize, if_neg hF] at hpre hnext
  have hsize : t.size = t.promotedSize := by omega
  intro e
  subst e
  exact absurd hsize (by decide)

/-- For every well-formed message and every content of `argTypes`: the host reads all the
    arguments, whatever their values, exactly when the offsets agree. -/
theorem arguments_survive_iff (endian : Endian) (signed : Bool) {message letters : List Byte} (argTypes : Nat → Byte)
    (hf : Format message letters) (hlen : message.length ≤ 199) (hargs : letters.length ≤ 20)
    (hbytes : argBytes letters ≤ 100) :
    Survives endian signed message letters argTypes ↔ OffsetsAgree endian letters (argTypes letters.length) := by
  have hlen' : message.length < MAX_NUM_CHARACTERS := by unfold MAX_NUM_CHARACTERS; omega
  constructor
  · intro hs
    refine ⟨fun hF => ?_, fun l hl hc => ?_, fun hne => ?_⟩
    · obtain ⟨pre, post, rfl⟩ := List.append_of_mem hF
      exact (hs.at_letter hf hlen' hargs (t := .double) (by decide)).1 rfl
    · cases endian with
      | little =>
        obtain ⟨pre, post, hdrop⟩ := List.append_of_mem hl
        simp only [charFree] at hdrop
        have hne : letters ≠ [] := by rintro rfl; cases hl
        obtain ⟨l', post', hpost⟩ : ∃ l' post', post ++ [letters.getLast hne] = l' :: post' := by
          cases post with
          | nil => exact ⟨_, _, rfl⟩
          | cons x post => exact ⟨_, _, rfl⟩
        have hsplit : letters = pre ++ l :: l' :: post' := by
          rw [← List.dropLast_concat_getLast hne, hdrop, List.append_assoc, List.cons_append, hpost]
        rw [hsplit] at hs hf hargs
        exact hs.same_size hf hlen' hargs hc rfl
      | big =>
        obtain ⟨pre, post, rfl⟩ := List.append_of_mem hl
        cases (hs.at_letter hf hlen' hargs hc).2.2.1 rfl
    · cases letters with
      | nil => exact absurd rfl hne
      | cons l letters =>
        obtain ⟨t, ht⟩ := hf.letter l List.mem_cons_self
        have hs : Survives endian signed message ([] ++ l :: letters) argTypes := hs
        exact (hs.at_letter hf hlen' hargs ht).2.2.2 rfl
  · rintro ⟨hF, hchar, hstale⟩ args beyond b hp hb
    let call : Call := ⟨message, variadic endian signed args beyond, argTypes⟩
    obtain ⟨b', pieces, hprint, hserve, hread⟩ := printed_reads endian call hf hlen' hargs hb
    have harea : ∀ i < argBytes letters,
        applyStores b.body call.stores (ARGUMENTS + i) = variadic endian signed args beyond i := by
      intro i hi
      have hne : letters ≠ [] := by rintro rfl; cases hi
      exact body_argument call hf hlen' hargs b.body (hstale hne) (by unfold ARGUMENTS_SIZE; omega) hi
    exact ⟨b', pieces, hprint, hserve, hread.trans (reads_args beyond hp hf.letter hF hchar harea)⟩

/-- `i=%d %f%c`. -/
def testMessage : List Byte := ['i', '=', '%', 'd', ' ', '%', 'f', '%', 'c'].map chr

theorem format_test : Format testMessage (['d', 'f', 'c'].map chr) :=
  .text (by decide) (by decide) (.text (by decide) (by decide) (.param (t := .int) rfl
    (.text (by decide) (by decide) (.param (t := .double) rfl (.param (t := .char) rfl .nil)))))

theorem arguments_survive_iff_test :
    Survives .little true testMessage (['d', 'f', 'c'].map chr) (fun _ => chr 'n') ∧
    ¬ Survives .little true testMessage (['d', 'f', 'c'].map chr) (fun _ => chr 's') :=
  ⟨(arguments_survive_iff .little true _ format_test (by decide) (by decide) (by decide)).mpr
      ⟨by decide, by decide, fun _ => by decide⟩,
    fun h => absurd rfl (((arguments_survive_iff .little true _ format_test (by decide) (by decide) (by decide)).mp h).stale
      (by decide)).1⟩

/-- `%c%d` printed with `'A'` and 7: the host reads the `int` one byte after the `char`. -/
theorem a_char_shifts_the_next_argument :
    ¬ ∀ (endian : Endian) (signed : Bool) (message letters : List Byte) (argTypes : Nat → Byte),
      Format message letters → message.length ≤ 199 → letters.length ≤ 20 → argBytes letters ≤ 100 →
      Survives endian signed message letters argTypes := by
  intro hall
  have hf : Format (['%', 'c', '%', 'd'].map chr) (['c', 'd'].map chr) :=
    .param (t := .char) rfl (.param (t := .int) rfl .nil)
  obtain ⟨b', pieces, hprint, hserve, hread⟩ := hall .little true _ _ (fun _ => 0) hf (by decide) (by decide) (by decide)
    [⟨.char, 65⟩, ⟨.int, 7⟩] (fun _ => 0) ⟨0, 0, fun _ => 0⟩ rfl rfl
  have hrun : ((eDartsPrint ⟨['%', 'c', '%', 'd'].map chr, variadic .little true [⟨.char, 65⟩, ⟨.int, 7⟩] fun _ => 0,
      fun _ => 0⟩ ⟨0, 0, fun _ => 0⟩).bind (printingServer .little)).map valuesRead =
      some [some ⟨.char, 65⟩, some ⟨.int, 7 * 2 ^ 24⟩] := by decide +kernel
  rw [hprint, Option.bind_some, hserve, Option.map_some, hread] at hrun
  exact absurd hrun (by decide)

end EDarts.Runtime.Print
