/-
  EDarts.SoftCache.CacheManagerRuns — calls and returns under the cache manager, over whole
  runs (see `EDarts.SoftCache.CacheManagerProofs`).

  `plainStep` is the machine without a cache: a function runs where it was linked, and a
  return goes to behind the innermost call. `Simulates` relates it to the cached one.

  - `table_consistent`: the rows are apart, count the open calls, and the entries go to them.
  - `open_code`: the code of every call that has not returned is where it runs, whatever was
    loaded and unloaded since.
  - `overrun_iff`: a call makes `.unloadloop` run past the end of the table exactly if its
    function is not in the table and all 19 rows are in use.
  - `runs_from_dram_iff`: a function runs from the external memory exactly if there is no
    room for it beside the functions in use.
  - `space_regained`: when all calls have returned, all of the space can be had again.
  - `plain_of_cached`: the cached machine enters the code, and returns to the addresses,
    that the plain one does.
  - `cached_of_plain`: every run of the plain machine that never has calls of more than 19
    functions open is a run of the cached one.
-/

import EDarts.SoftCache.CacheManagerProofs
import Mathlib.Data.List.Dedup

namespace EDarts.SoftCache

open Lib

namespace Image

variable {ι : Type} {P : Image ι} {s : State} {live : List Row}

/-! ## Calls and returns -/

variable (P) in
/-- A row's count is `n`, and the calls `calls` have not returned. -/
def recounted (before : List Row) (row : Row) (n : Nat) (behind : List Row) (calls : List Call) (s : State) : State :=
  { s with
    table := P.tableOf (before ++ { row with referenceCount := n } :: behind)
    calls := calls }

theorem scan_eq {before behind : List Row} {row : Row} (H : Cached P s (before ++ row :: behind)) (count : Nat → Nat)
    (calls : List Call) :
    scan row.plt count { s with calls := calls } =
      some (row, P.recounted before row (count row.referenceCount) behind calls s) := by
  have hbefore : ∀ r ∈ before, r.plt ≠ row.plt := by
    intro r hr
    have hdistinct := H.distinct
    rw [List.map_append, List.map_cons] at hdistinct
    exact fun e => (List.nodup_append.mp hdistinct).2.2 _ (List.mem_map_of_mem hr) _ List.mem_cons_self e
  have hlen : (before ++ { row with referenceCount := count row.referenceCount } :: behind).length =
      (before ++ row :: behind).length := by simp
  simp only [scan, H.table, tableOf, recounted, hlen, List.append_assoc, List.cons_append]
  rw [scanLoop_eq count rfl _ _ hbefore]
  rfl

/-- The table follows the calls of one function. -/
theorem Cached.recounted {before behind : List Row} {row : Row} (H : Cached P s (before ++ row :: behind)) {n : Nat}
    (calls : List Call)
    (hcalls : ∀ c ∈ calls, c ∈ s.calls ∨ (c.ret ≠ .failed ∧ c.plt = row.plt ∧ c.address = row.startAddress))
    (hactive : ∀ plt, active { s with calls := calls } plt = if plt = row.plt then n else active s plt) :
    Cached P (P.recounted before row n behind calls s) (before ++ { row with referenceCount := n } :: behind) := by
  have hrow : row ∈ before ++ row :: behind := List.mem_append_right _ List.mem_cons_self
  have hmap : (before ++ { row with referenceCount := n } :: behind).map Row.plt =
      (before ++ row :: behind).map Row.plt := by simp
  -- a row is the recounted one, or an old one of another function
  have hcases : ∀ row' ∈ before ++ { row with referenceCount := n } :: behind,
      row' = { row with referenceCount := n } ∨ (row' ∈ before ++ row :: behind ∧ row'.plt ≠ row.plt) := by
    intro row' hrow'
    have hdistinct := H.distinct
    rw [List.map_append, List.map_cons, List.nodup_middle, ← List.map_append] at hdistinct
    have hrest : row' ∈ before ++ behind → row' ∈ before ++ row :: behind ∧ row'.plt ≠ row.plt := by
      intro hr
      refine ⟨?_, fun e => (List.nodup_cons.mp hdistinct).1 (e ▸ List.mem_map_of_mem hr)⟩
      exact List.Sublist.subset (List.Sublist.append_left (List.sublist_cons_self row behind) before) hr
    rcases List.mem_append.mp hrow' with hr | hr
    · exact .inr (hrest (List.mem_append_left _ hr))
    · rcases List.mem_cons.mp hr with rfl | hr
      · exact .inl rfl
      · exact .inr (hrest (List.mem_append_right _ hr))
  have hkept : ∀ old ∈ before ++ row :: behind, ∃ row' ∈ before ++ { row with referenceCount := n } :: behind,
      row'.plt = old.plt ∧ row'.startAddress = old.startAddress := by
    intro old hold
    rcases List.mem_append.mp hold with hr | hr
    · exact ⟨old, List.mem_append_left _ hr, rfl, rfl⟩
    · rcases List.mem_cons.mp hr with rfl | hr
      · exact ⟨_, List.mem_append_right _ List.mem_cons_self, rfl, rfl⟩
      · exact ⟨old, List.mem_append_right _ (List.mem_cons_of_mem _ hr), rfl, rfl⟩
  have hfew : (before ++ { row with referenceCount := n } :: behind).length ≤ CACHE_TABLE_SIZE - 1 := by
    have := H.few
    simp only [List.length_append, List.length_cons] at this ⊢
    exact this
  refine ⟨rfl, hfew, H.laid.replace rfl rfl, hmap ▸ H.distinct, ?_, ?_, ?_, ?_, ?_⟩
  · intro row' hrow'
    rcases hcases row' hrow' with rfl | ⟨hold, -⟩
    · obtain ⟨f, hf⟩ := H.holds row hrow
      exact ⟨f, hf.plt, hf.aligned, hf.ends, hf.code⟩
    · exact H.holds row' hold
  · intro row' hrow'
    have hcount := hactive row'.plt
    rcases hcases row' hrow' with rfl | ⟨hold, hne⟩
    · rw [if_pos rfl] at hcount
      exact hcount.symm
    · rw [if_neg hne] at hcount
      exact (H.counts row' hold).trans hcount.symm
  · intro f
    have htarget := H.branch f
    rw [targetOf, ← hmap] at htarget
    exact htarget
  · intro c hc hret
    rcases hcalls c hc with hc | ⟨-, hplt, haddress⟩
    · obtain ⟨old, hold, hplt, haddress⟩ := H.cached c hc hret
      obtain ⟨row', hrow', hplt', haddress'⟩ := hkept old hold
      exact ⟨row', hrow', hplt'.trans hplt, haddress'.trans haddress⟩
    · exact ⟨_, List.mem_append_right _ List.mem_cons_self, hplt.symm, haddress.symm⟩
  · intro c hc hret
    rcases hcalls c hc with hc | ⟨hcached, -, -⟩
    · exact H.failed c hc hret
    · exact absurd hret hcached

/-- The entry of a resident function goes to `countedcall`, any other to `cacheman`. -/
theorem Cached.call_eq (H : Cached P s live) (f : ι) (lr : Nat) :
    P.call f lr s = if P.plt f ∈ live.map Row.plt then P.countedCall f lr s else P.cachemanCall f lr s := by
  have hmanager := P.manager_low
  have hspace := P.space
  have htop := P.top_local
  have hplt := P.plt_low f
  have heven := P.plt_even f
  have hsite : 2 ∣ P.plt f - 4 := by omega
  rw [call, H.branch f, targetOf]
  split
  · rw [blTarget_blTo hsite P.countedcall_even (by omega) (by omega), if_neg, if_pos rfl]
    simp only [Option.some.injEq]
    omega
  · rw [blTarget_blTo hsite P.cacheman_even (by omega) (by omega), if_pos rfl]

variable (P) in
/-- There is a place for `f` beside the rows. -/
def Room (rows : List Row) (f : ι) : Prop :=
  ∃ dest, P.spaceLow ≤ dest ∧ dest + P.size f ≤ P.cachespacetop ∧
    ∀ row ∈ rows, row.endAddress ≤ dest ∨ dest + P.size f ≤ row.startAddress

variable (P) in
/-- Not in the table, where all rows are in use. -/
def Blocked (live : List Row) (f : ι) : Prop :=
  P.plt f ∉ live.map Row.plt ∧ (live.filter inUse).length = CACHE_TABLE_SIZE - 1

/-- What the manager does for a call of `f` before it enters the function. -/
structure Entered (P : Image ι) (s : State) (live : List Row) (f : ι) (lr : Nat) (s' : State) (c : Call) : Prop where
  calls : s'.calls = c :: s.calls
  lr : c.lr = lr
  plt : c.plt = P.plt f
  failed : c.ret = .failed ↔ P.plt f ∉ live.map Row.plt ∧ ¬ P.Room (live.filter inUse) f
  cached : ∃ live', Cached P s' live'

theorem Cached.room_iff (H : Cached P s live) (f : ι) :
    (firstGap Row.startAddress Row.endAddress (P.size f) P.spaceLow live P.cachespacetop).isSome = true ↔ P.Room live f :=
  firstGap_isSome_iff H.laid

theorem Cached.blocked_iff (H : Cached P s live) :
    (live.filter inUse).length = CACHE_TABLE_SIZE - 1 ↔ live.length = CACHE_TABLE_SIZE - 1 ∧ live.all inUse = true := by
  have hfew := H.few
  have hle := List.length_filter_le inUse live
  constructor
  · intro h
    have hall : live.filter inUse = live := List.filter_sublist.eq_of_length (by omega)
    exact ⟨by omega, List.all_eq_true.mpr (List.filter_eq_self.mp hall)⟩
  · intro h
    rw [List.filter_eq_self.mpr (List.all_eq_true.mp h.2)]
    exact h.1

/-- A load that finds a gap. -/
theorem Cached.load_some (H : Cached P s live) {f : ι} {dest : Nat} {s' : State} (hnew : P.plt f ∉ live.map Row.plt)
    (h : P.load f s = some (dest, s')) (lr : Nat) :
    P.Room live f ∧ (P.enter f lr .loaded dest s').calls = ⟨lr, P.plt f, .loaded, dest⟩ :: s.calls ∧
      ∃ live', Cached P (P.enter f lr .loaded dest s') live' := by
  rw [load_eq H] at h
  split at h
  · cases h
  · obtain ⟨d, hd, he⟩ := Option.map_eq_some_iff.mp h
    obtain ⟨rfl, rfl⟩ : d = dest ∧ P.loadedAt f d s = s' := by simpa using he
    have hroom := (H.room_iff f).mp (Option.isSome_iff_exists.mpr ⟨d, hd⟩)
    have hfew := H.few
    obtain ⟨above, behind, rfl, G⟩ := H.gap hd
    exact ⟨hroom, rfl, _, H.loaded G hnew (by omega) lr⟩

/-- Calls from the external memory are not counted. -/
theorem Cached.enter_failed (H : Cached P s live) (f : ι) (lr : Nat) :
    Cached P (P.enter f lr .failed (P.startaddr f) s) live := by
  refine ⟨H.table, H.few, H.laid, H.distinct, H.holds, ?_, H.branch, ?_, ?_⟩
  · intro row hrow
    rw [H.counts row hrow, active, active, enter, List.countP_cons_of_neg (by simp)]
  · intro c hc hret
    rcases List.mem_cons.mp hc with rfl | hc
    · exact absurd rfl hret
    · exact H.cached c hc hret
  · intro c hc hret
    rcases List.mem_cons.mp hc with rfl | hc
    · exact ⟨f, rfl, rfl⟩
    · exact H.failed c hc hret

theorem Cached.cachemanCall (H : Cached P s live) {f : ι} (hnew : P.plt f ∉ live.map Row.plt) (lr : Nat) :
    (P.Blocked live f ∧ P.cachemanCall f lr s = none) ∨
      (¬ P.Blocked live f ∧ ∃ s' c, P.cachemanCall f lr s = some s' ∧ Entered P s live f lr s' c) := by
  have hsub : ∀ row ∈ live.filter inUse, row ∈ live := fun row hrow => (List.mem_filter.mp hrow).1
  rw [Image.cachemanCall]
  cases hload : P.load f s with
  | some r =>
    obtain ⟨dest, s'⟩ := r
    obtain ⟨hroom, hcalls, hcached⟩ := H.load_some hnew hload lr
    have hroom' : P.Room (live.filter inUse) f := by
      obtain ⟨d, hlow, htop, hbeside⟩ := hroom
      exact ⟨d, hlow, htop, fun row hrow => hbeside row (hsub row hrow)⟩
    refine .inr ⟨?_, _, _, rfl, hcalls, rfl, rfl, ?_, hcached⟩
    · intro hblocked
      rw [load_eq H, if_pos (H.blocked_iff.mp hblocked.2).1] at hload
      cases hload
    · exact ⟨fun h => (nomatch h), fun h => absurd hroom' h.2⟩
  | none =>
    by_cases hfull : (live.filter inUse).length = CACHE_TABLE_SIZE - 1
    · refine .inl ⟨⟨hnew, hfull⟩, ?_⟩
      rw [unload_eq H, if_pos (H.blocked_iff.mp hfull)]
    · refine .inr ⟨fun h => hfull h.2, ?_⟩
      have H' := H.unloaded
      have hnew' : P.plt f ∉ (live.filter inUse).map Row.plt := by
        intro h
        obtain ⟨row, hrow, hplt⟩ := List.mem_map.mp h
        exact hnew (List.mem_map.mpr ⟨row, hsub row hrow, hplt⟩)
      rw [unload_eq H, if_neg fun h => hfull (H.blocked_iff.mpr h)]
      simp only
      cases hagain : P.load f (P.unloaded live s) with
      | some r =>
        obtain ⟨dest, s'⟩ := r
        obtain ⟨hroom, hcalls, hcached⟩ := H'.load_some hnew' hagain lr
        exact ⟨_, _, rfl, hcalls, rfl, rfl, ⟨fun h => (nomatch h), fun h => absurd hroom h.2⟩, hcached⟩
      | none =>
        rw [load_eq H', if_neg hfull, Option.map_eq_none_iff] at hagain
        refine ⟨_, _, rfl, rfl, rfl, rfl, ⟨fun _ => ⟨hnew, fun hroom => ?_⟩, fun _ => rfl⟩, _, H'.enter_failed f lr⟩
        rw [← H'.room_iff, hagain] at hroom
        cases hroom

theorem Cached.countedCall (H : Cached P s live) {f : ι} (hin : P.plt f ∈ live.map Row.plt) (lr : Nat) :
    ∃ s' c, P.countedCall f lr s = some s' ∧ Entered P s live f lr s' c := by
  obtain ⟨row, hrow, hplt⟩ := List.mem_map.mp hin
  obtain ⟨before, behind, rfl⟩ := List.append_of_mem hrow
  have hscan : scan row.plt (· + 1) s = _ := scan_eq H (· + 1) s.calls
  rw [hplt] at hscan
  rw [Image.countedCall, hscan]
  refine ⟨_, _, rfl, rfl, rfl, rfl, ⟨fun h => (nomatch h), fun h => absurd hin h.1⟩, _, H.recounted (_ :: s.calls) ?_ ?_⟩
  · intro c hc
    rcases List.mem_cons.mp hc with rfl | hc
    · exact .inr ⟨by simp, hplt.symm, rfl⟩
    · exact .inl hc
  · intro plt
    have hactive := active_enter (P := P) f lr (by decide : Return.counted ≠ .failed) row.startAddress s plt
    by_cases h : P.plt f = plt
    · subst h
      rw [if_pos rfl] at hactive
      rw [if_pos hplt.symm, H.counts row hrow, hplt]
      exact hactive
    · rw [if_neg h] at hactive
      rw [if_neg fun e => h (hplt.symm.trans e.symm)]
      exact hactive

/-- What a call can do. -/
theorem Cached.call (H : Cached P s live) (f : ι) (lr : Nat) :
    (P.Blocked live f ∧ P.call f lr s = none) ∨
      (¬ P.Blocked live f ∧ ∃ s' c, P.call f lr s = some s' ∧ Entered P s live f lr s' c) := by
  rw [H.call_eq]
  by_cases hin : P.plt f ∈ live.map Row.plt
  · rw [if_pos hin]
    exact .inr ⟨fun h => h.1 hin, H.countedCall hin lr⟩
  · rw [if_neg hin]
    exact H.cachemanCall hin lr

/-- What a return can do. -/
theorem Cached.ret (H : Cached P s live) :
    (s.calls = [] ∧ ret s = none) ∨
      ∃ c calls s', s.calls = c :: calls ∧ ret s = some (c.lr, s') ∧ s'.calls = calls ∧ ∃ live', Cached P s' live' := by
  rw [Image.ret]
  cases hcalls : s.calls with
  | nil => exact .inl ⟨rfl, rfl⟩
  | cons c calls =>
    have hold : ∀ c' ∈ calls, c' ∈ s.calls := fun c' hc' => hcalls ▸ List.mem_cons_of_mem c hc'
    refine .inr ⟨c, calls, ?_⟩
    by_cases hret : c.ret = .failed
    · refine ⟨{ s with calls := calls }, rfl, by simp only [hret], rfl, live, H.table, H.few, H.laid, H.distinct, H.holds,
        ?_, H.branch, fun c' hc' => H.cached c' (hold c' hc'), fun c' hc' => H.failed c' (hold c' hc')⟩
      intro row hrow
      rw [H.counts row hrow, active, active, hcalls, List.countP_cons_of_neg (by simp [hret])]
    · obtain ⟨row, hrow, hplt, -⟩ := H.cached c (hcalls ▸ List.mem_cons_self) hret
      obtain ⟨before, behind, rfl⟩ := List.append_of_mem hrow
      have hscan := scan_eq H (· - 1) calls
      rw [hplt] at hscan
      refine ⟨P.recounted before row (row.referenceCount - 1) behind calls s, rfl, ?_, rfl, _,
        H.recounted calls (fun c' hc' => .inl (hold c' hc')) ?_⟩
      · simp only [hscan]
        split
        · contradiction
        all_goals rfl
      · intro plt
        have hactive : active s plt = active { s with calls := calls } plt + if c.plt = plt then 1 else 0 := by
          rw [active, active, hcalls, List.countP_cons]
          by_cases h : c.plt = plt <;> simp [h, hret]
        rw [H.counts row hrow, hplt]
        by_cases h : plt = c.plt
        · subst h
          rw [if_pos rfl] at hactive
          rw [if_pos rfl, hactive, Nat.add_sub_cancel]
        · rw [if_neg fun e => h e.symm] at hactive
          rw [if_neg h, hactive, Nat.add_zero]

/-! ## The start -/

variable (P) in
def initial : State where
  table := P.firstRow :: List.replicate (CACHE_TABLE_SIZE - 1) P.freeRow
  branch := fun site => blTo site P.cacheman
  space := fun _ => 0
  calls := []

theorem fresh_initial : P.Fresh P.initial := ⟨rfl, fun _ => rfl, rfl⟩

theorem reachable_run {is : List (Op ι)} {os : List Out} (h : run P.step P.initial is = some (os, s)) : P.Reachable s :=
  Reach.of_run is (.init fresh_initial) h

/-- Two functions, of 40 and 60 bytes, and space for 64. -/
def twoFunctions : Image Bool where
  cacheman := 0x40
  countedcall := 0x80
  cachespacebot := 0x200
  cachespacetop := 0x380
  plt f := if f then 0x108 else 0x118
  startaddr f := if f then 0x1000 else 0x2000
  size f := if f then 40 else 60
  dram := BitVec.ofNat 32
  plt_injective := by
    intro f g h
    cases f <;> cases g <;> first | rfl | cases h
  plt_even := by decide
  plt_low := by decide
  cacheman_even := by decide
  countedcall_even := by decide
  manager_low := by decide
  bot_aligned := by decide
  top_aligned := by decide
  space := by decide
  top_local := by decide
  size_pos := by decide
  size_lt := by decide

/-! ## Reachable states -/

theorem Cached.step (H : Cached P s live) {i : Op ι} {o : Out} {s' : State} (h : P.step s i = some (o, s')) :
    ∃ live', Cached P s' live' := by
  cases i with
  | call f lr =>
    obtain ⟨s₁, hcall, he⟩ := Option.map_eq_some_iff.mp h
    obtain ⟨-, rfl⟩ : _ ∧ s₁ = s' := by simpa using he
    rcases H.call f lr with ⟨-, hnone⟩ | ⟨-, s₂, c, hsome, hentered⟩
    · rw [hnone] at hcall
      cases hcall
    · rw [hsome] at hcall
      cases hcall
      exact hentered.cached
  | ret =>
    obtain ⟨r, hret, he⟩ := Option.map_eq_some_iff.mp h
    obtain ⟨-, rfl⟩ : _ ∧ r.2 = s' := by simpa using he
    rcases H.ret with ⟨-, hnone⟩ | ⟨c, calls, s₂, -, hsome, -, hcached⟩
    · rw [hnone] at hret
      cases hret
    · rw [hsome] at hret
      cases hret
      exact hcached

/-- The table is in order, counts the open calls, and the entries go to its rows. -/
theorem table_consistent (h : P.Reachable s) : ∃ live, Cached P s live :=
  h.inv (fun s => ∃ live, Cached P s live) (fun _ hs => ⟨[], Cached.start hs⟩) fun _ _ hs hst => by
    obtain ⟨live, H⟩ := hs
    obtain ⟨i, o, hst⟩ := hst
    exact H.step hst

theorem table_consistent_nested : ∃ s live, twoFunctions.Reachable s ∧ live ≠ [] ∧ Cached twoFunctions s live := by
  obtain ⟨r, hrun, hused⟩ : ∃ r, run twoFunctions.step twoFunctions.initial [.call true 0] = some r ∧
      twoFunctions.newRow true twoFunctions.spaceLow ∈ r.2.table := ⟨_, rfl, by decide +kernel⟩
  obtain ⟨live, H⟩ := table_consistent (reachable_run hrun)
  refine ⟨r.2, live, reachable_run hrun, fun hnil => ?_, H⟩
  rw [H.table, hnil] at hused
  revert hused
  decide +kernel

theorem Cached.function (H : Cached P s live) {c : Call} (hc : c ∈ s.calls) : ∃ f, c.plt = P.plt f := by
  by_cases hret : c.ret = .failed
  · obtain ⟨f, hplt, -⟩ := H.failed c hc hret
    exact ⟨f, hplt⟩
  · obtain ⟨row, hrow, hplt, -⟩ := H.cached c hc hret
    obtain ⟨f, hf⟩ := H.holds row hrow
    exact ⟨f, hplt.symm.trans hf.plt⟩

theorem Cached.code (H : Cached P s live) {c : Call} (hc : c ∈ s.calls) {f : ι} (hplt : c.plt = P.plt f) :
    wordsAt (P.memory s c) c.address (P.words f) = wordsAt P.dram (P.startaddr f) (P.words f) := by
  by_cases hret : c.ret = .failed
  · obtain ⟨g, hg, haddress⟩ := H.failed c hc hret
    obtain rfl : f = g := P.plt_injective (hplt.symm.trans hg)
    rw [memory, if_pos hret, haddress]
  · obtain ⟨row, hrow, hrplt, haddress⟩ := H.cached c hc hret
    obtain ⟨g, hg⟩ := H.holds row hrow
    obtain rfl : f = g := P.plt_injective (hplt.symm.trans (hrplt.symm.trans hg.plt))
    rw [memory, if_neg hret, ← haddress]
    exact List.map_congr_left fun k hk => hg.code k (List.mem_range.mp hk)

/-- The code of a call that has not returned is where it runs. -/
theorem open_code (h : P.Reachable s) {c : Call} (hc : c ∈ s.calls) :
    ∃ f, c.plt = P.plt f ∧ wordsAt (P.memory s c) c.address (P.words f) = wordsAt P.dram (P.startaddr f) (P.words f) := by
  obtain ⟨live, H⟩ := table_consistent h
  obtain ⟨f, hplt⟩ := H.function hc
  exact ⟨f, hplt, H.code hc hplt⟩

theorem open_code_nested : ∃ s, twoFunctions.Reachable s ∧ s.calls.length = 2 ∧ ∀ c ∈ s.calls, ∃ f,
    c.plt = twoFunctions.plt f ∧ wordsAt (twoFunctions.memory s c) c.address (twoFunctions.words f) =
      wordsAt twoFunctions.dram (twoFunctions.startaddr f) (twoFunctions.words f) := by
  obtain ⟨r, hrun, hlen⟩ : ∃ r, run twoFunctions.step twoFunctions.initial [.call true 0, .call false 1] = some r ∧
      r.2.calls.length = 2 := ⟨_, rfl, rfl⟩
  have h := reachable_run hrun
  exact ⟨r.2, h, hlen, fun c hc => open_code h hc⟩

variable (P) in
def Resident (s : State) (f : ι) : Prop := ∃ row ∈ s.table, row.plt = P.plt f

theorem Cached.resident_iff (H : Cached P s live) (f : ι) : P.Resident s f ↔ P.plt f ∈ live.map Row.plt := by
  have hplt := (P.plt_low f).2
  have hspace := P.space
  rw [Resident, H.table, List.mem_map]
  constructor
  · intro h
    obtain ⟨row, hrow, he⟩ := h
    rcases List.mem_cons.mp hrow with rfl | hrow
    · simp only [firstRow, spaceLow] at he
      omega
    · rcases List.mem_append.mp hrow with hrow | hrow
      · exact ⟨row, hrow, he⟩
      · rw [List.eq_of_mem_replicate hrow] at he
        simp only [freeRow] at he
        omega
  · intro h
    obtain ⟨row, hrow, he⟩ := h
    exact ⟨row, List.mem_cons_of_mem _ (List.mem_append_left _ hrow), he⟩

/-- The fixed row and the free ones are not in use. -/
theorem Cached.inUse_eq (H : Cached P s live) : s.table.filter inUse = live.filter inUse := by
  have hfirst : inUse P.firstRow = false := rfl
  have hfree : (List.replicate (CACHE_TABLE_SIZE - 1 - live.length) P.freeRow).filter inUse = [] := by
    rw [List.filter_eq_nil_iff]
    intro row hrow
    rw [List.eq_of_mem_replicate hrow]
    exact Bool.false_ne_true
  rw [H.table, tableOf, List.filter_cons, hfirst, List.filter_append, hfree, List.append_nil]
  rfl

/-- The loop that unloads runs past the table's end exactly for a function that is not in a
    table with all rows in use. -/
theorem overrun_iff (h : P.Reachable s) (f : ι) (lr : Nat) :
    P.step s (.call f lr) = none ↔ ¬ P.Resident s f ∧ (s.table.filter inUse).length = CACHE_TABLE_SIZE - 1 := by
  obtain ⟨live, H⟩ := table_consistent h
  rw [H.resident_iff, H.inUse_eq]
  rcases H.call f lr with ⟨hblocked, hnone⟩ | ⟨hfree, s', c, hsome, -⟩
  · refine ⟨fun _ => hblocked, fun _ => ?_⟩
    rw [step, hnone]
    rfl
  · refine ⟨fun hnone => ?_, fun hblocked => absurd hblocked hfree⟩
    rw [step, hsome] at hnone
    cases hnone

/-- One function more than there are rows. -/
def twentyFunctions : Image (Fin 20) where
  cacheman := 0x40
  countedcall := 0x80
  cachespacebot := 0x400
  cachespacetop := 0x600
  plt f := 0x108 + 16 * f
  startaddr f := 0x1000 + 4 * f
  size _ := 4
  dram := BitVec.ofNat 32
  plt_injective := by
    intro f g h
    simp only at h
    omega
  plt_even := by decide
  plt_low := by decide
  cacheman_even := by decide
  countedcall_even := by decide
  manager_low := by decide
  bot_aligned := by decide
  top_aligned := by decide
  space := by decide
  top_local := by decide
  size_pos := by decide
  size_lt := by decide

theorem overrun_nested : ∃ s, twentyFunctions.Reachable s ∧ s.calls.length = 19 ∧
    twentyFunctions.step s (.call 19 0) = none := by
  obtain ⟨r, hrun, hlen, hnew, hfull⟩ : ∃ r, run twentyFunctions.step twentyFunctions.initial
      ((List.finRange 19).map fun f => .call f.castSucc 0) = some r ∧ r.2.calls.length = 19 ∧
      (∀ row ∈ r.2.table, row.plt ≠ twentyFunctions.plt 19) ∧
      (r.2.table.filter inUse).length = CACHE_TABLE_SIZE - 1 := by
    refine ⟨_, rfl, ?_, ?_, ?_⟩
    · decide +kernel
    · decide +kernel
    · decide +kernel
  refine ⟨r.2, reachable_run hrun, hlen, (overrun_iff (reachable_run hrun) 19 0).mpr ⟨?_, hfull⟩⟩
  rintro ⟨row, hrow, h⟩
  exact hnew row hrow h

/-- A function runs from the external memory exactly if no place is beside those in use. -/
theorem runs_from_dram_iff (h : P.Reachable s) {f : ι} {lr : Nat} {o : Out} {s' : State}
    (hst : P.step s (.call f lr) = some (o, s')) :
    s'.calls.head?.map Call.ret = some .failed ↔ ¬ P.Resident s f ∧ ¬ P.Room (s.table.filter inUse) f := by
  obtain ⟨live, H⟩ := table_consistent h
  rw [H.resident_iff, H.inUse_eq]
  rcases H.call f lr with ⟨-, hnone⟩ | ⟨-, s₁, c, hsome, he⟩
  · rw [step, hnone] at hst
    cases hst
  · rw [step, hsome] at hst
    cases hst
    rw [he.calls, ← he.failed]
    simp

theorem runs_from_dram_nested : ∃ s o s', twoFunctions.Reachable s ∧ twoFunctions.step s (.call false 1) = some (o, s') ∧
    s'.calls.head?.map Call.ret = some .failed := by
  obtain ⟨r, hrun, hnew, hused⟩ : ∃ r, run twoFunctions.step twoFunctions.initial [.call true 0] = some r ∧
      (∀ row ∈ r.2.table, row.plt ≠ twoFunctions.plt false) ∧
      twoFunctions.newRow true twoFunctions.spaceLow ∈ r.2.table.filter inUse :=
    ⟨_, rfl, by decide +kernel, by decide +kernel⟩
  obtain ⟨r', hst⟩ : ∃ r', twoFunctions.step r.2 (.call false 1) = some r' := by
    cases hrun
    exact ⟨_, rfl⟩
  refine ⟨r.2, r'.1, r'.2, reachable_run hrun, hst, (runs_from_dram_iff (reachable_run hrun) hst).mpr ⟨?_, ?_⟩⟩
  · intro hin
    obtain ⟨row, hrow, hplt⟩ := hin
    exact hnew row hrow hplt
  · -- 40 of the 64 bytes are in use, and 60 are needed
    intro hroom
    obtain ⟨dest, hlow, htop, hbeside⟩ := hroom
    have hrow := hbeside _ hused
    simp only [newRow, words, spaceLow, twoFunctions, CACHE_TABLE_SIZE, CACHE_TABLE_ENTRY_WIDTH] at hlow htop hrow
    simp at htop hrow
    omega

/-- Nothing of the space is lost: when all calls have returned, any function that fits in
    the space is loaded. -/
theorem space_regained (h : P.Reachable s) (hidle : s.calls = []) (f : ι) (lr : Nat) :
    ∃ o s' c, P.step s (.call f lr) = some (o, s') ∧ s'.calls = [c] ∧
      (c.ret = .failed ↔ P.cachespacetop < P.spaceLow + P.size f) := by
  obtain ⟨live, H⟩ := table_consistent h
  have hunused : live.filter inUse = [] := by
    rw [List.filter_eq_nil_iff]
    intro row hrow
    have hcount := H.counts row hrow
    rw [active, hidle, List.countP_nil] at hcount
    simp [inUse, hcount]
  rcases H.call f lr with ⟨hblocked, -⟩ | ⟨-, s', c, hsome, he⟩
  · have hfull := hblocked.2
    rw [hunused] at hfull
    cases hfull
  · refine ⟨_, s', c, by rw [step, hsome]; rfl, by rw [he.calls, hidle], ?_⟩
    rw [he.failed, hunused]
    constructor
    · intro hfailed
      by_contra hfits
      exact hfailed.2 ⟨P.spaceLow, Nat.le_refl _, Nat.le_of_not_lt hfits, fun _ h => absurd h List.not_mem_nil⟩
    · intro hlarge
      refine ⟨fun hin => ?_, fun hroom => ?_⟩
      · obtain ⟨row, hrow, hplt⟩ := List.mem_map.mp hin
        obtain ⟨g, hg⟩ := H.holds row hrow
        obtain rfl : f = g := P.plt_injective (hplt.symm.trans hg.plt)
        have hends := hg.ends
        have hsize := P.size_le_words f
        obtain ⟨hlow, -, htop⟩ := H.laid.bounds hrow
        omega
      · obtain ⟨dest, hlow, htop, -⟩ := hroom
        omega

theorem space_regained_second : ∃ s, twoFunctions.Reachable s ∧ ∃ o s' c, twoFunctions.step s (.call false 0) = some (o, s') ∧
    s'.calls = [c] ∧ c.ret ≠ .failed := by
  obtain ⟨r, hrun, hidle⟩ : ∃ r, run twoFunctions.step twoFunctions.initial [.call true 0, .ret] = some r ∧
      r.2.calls = [] := ⟨_, rfl, rfl⟩
  obtain ⟨o, s', c, hst, hcalls, hret⟩ := space_regained (reachable_run hrun) hidle false 0
  exact ⟨r.2, reachable_run hrun, o, s', c, hst, hcalls, fun hfailed => absurd (hret.mp hfailed) (by decide)⟩

/-! ## The machine without a cache -/

variable (P) in
/-- The functions whose calls have not returned, with the addresses behind the calls. -/
def plainStep : List (ι × Nat) → Op ι → Option (Out × List (ι × Nat))
  | stack, .call f lr => some (.entered (wordsAt P.dram (P.startaddr f) (P.words f)), (f, lr) :: stack)
  | [], .ret => none
  | (_, lr) :: stack, .ret => some (.returned lr, stack)

structure Simulates (P : Image ι) (s : State) (stack : List (ι × Nat)) : Prop where
  calls : s.calls.map (fun c => (c.plt, c.lr)) = stack.map fun x => (P.plt x.1, x.2)
  cached : ∃ live, Cached P s live

theorem Simulates.start (hs : P.Fresh s) : Simulates P s [] := by
  refine ⟨?_, [], Cached.start hs⟩
  rw [hs.calls]
  rfl

variable {stack : List (ι × Nat)}

/-- A call that comes back from the manager enters the function's code. -/
theorem Simulates.call (h : Simulates P s stack) {f : ι} {lr : Nat} {s' : State} {c : Call}
    (hcall : P.call f lr s = some s') (he : Entered P s live f lr s' c) :
    P.step s (.call f lr) = some (.entered (wordsAt P.dram (P.startaddr f) (P.words f)), s') ∧
      Simulates P s' ((f, lr) :: stack) := by
  obtain ⟨live', H⟩ := he.cached
  have hcode := H.code (he.calls ▸ List.mem_cons_self) he.plt
  constructor
  · rw [step, hcall, Option.map_some, entered, he.calls]
    simp only [hcode]
  · refine ⟨?_, live', H⟩
    rw [he.calls, List.map_cons, h.calls, he.plt, he.lr]
    rfl

/-- A return goes to behind the innermost call. -/
theorem Simulates.ret (h : Simulates P s stack) :
    (stack = [] ∧ P.step s .ret = none) ∨
      ∃ f lr rest s', stack = (f, lr) :: rest ∧ P.step s .ret = some (.returned lr, s') ∧ Simulates P s' rest := by
  obtain ⟨live, H⟩ := h.cached
  have hcalls := h.calls
  rcases H.ret with ⟨hnil, hnone⟩ | ⟨c, calls, s', hcons, hret, hrest, hcached⟩
  · rw [hnil] at hcalls
    refine .inl ⟨List.map_eq_nil_iff.mp hcalls.symm, ?_⟩
    rw [step, hnone]
    rfl
  · rw [hcons] at hcalls
    cases stack with
    | nil => cases hcalls
    | cons x rest =>
      obtain ⟨f, lr⟩ := x
      simp only [List.map_cons, List.cons.injEq, Prod.mk.injEq] at hcalls
      refine .inr ⟨f, lr, rest, s', rfl, ?_, ?_, hcached⟩
      · rw [step, hret, ← hcalls.1.2]
        rfl
      · rw [hrest]
        exact hcalls.2

/-- Under the cache the program runs like without: it enters the same code, and returns to
    the same addresses. -/
theorem plain_of_cached (hs : P.Fresh s) (is : List (Op ι)) {os : List Out} {s' : State}
    (hrun : run P.step s is = some (os, s')) : ∃ stack, run P.plainStep [] is = some (os, stack) := by
  have hsim : ∀ s stack i o s', Simulates P s stack → P.step s i = some (o, s') →
      ∃ stack', P.plainStep stack i = some (o, stack') ∧ Simulates P s' stack' := by
    intro s stack i o s' h hst
    cases i with
    | call f lr =>
      obtain ⟨live, H⟩ := h.cached
      rcases H.call f lr with ⟨-, hnone⟩ | ⟨-, s₁, c, hcall, he⟩
      · rw [step, hnone] at hst
        cases hst
      · obtain ⟨hst₁, h'⟩ := h.call hcall he
        rw [hst] at hst₁
        cases hst₁
        exact ⟨_, rfl, h'⟩
    | ret =>
      rcases h.ret with ⟨-, hnone⟩ | ⟨f, lr, rest, s₁, rfl, hst₁, h'⟩
      · rw [hst] at hnone
        cases hnone
      · rw [hst] at hst₁
        cases hst₁
        exact ⟨rest, rfl, h'⟩
  obtain ⟨stack, hplain, -⟩ := run_simulated (Simulates P) hsim is (Simulates.start hs) hrun
  exact ⟨stack, hplain⟩

theorem plain_of_cached_nested : ∃ os s' stack,
    run twoFunctions.step twoFunctions.initial [.call true 0, .call false 1, .ret, .call false 2] = some (os, s') ∧
      run twoFunctions.plainStep [] [.call true 0, .call false 1, .ret, .call false 2] = some (os, stack) := by
  obtain ⟨r, hrun⟩ : ∃ r, run twoFunctions.step twoFunctions.initial
      [.call true 0, .call false 1, .ret, .call false 2] = some r := ⟨_, rfl⟩
  obtain ⟨stack, hplain⟩ := plain_of_cached fresh_initial _ hrun
  exact ⟨r.1, r.2, stack, hrun, hplain⟩

variable (P) in
/-- How many functions have open calls. -/
def functions (stack : List (ι × Nat)) : Nat := (stack.map fun x => P.plt x.1).dedup.length

theorem Simulates.not_blocked (h : Simulates P s stack) (H : Cached P s live) {f : ι} {lr : Nat}
    (hfew : P.functions ((f, lr) :: stack) ≤ CACHE_TABLE_SIZE - 1) : ¬ P.Blocked live f := by
  intro hblocked
  obtain ⟨hnew, hfull⟩ := hblocked
  have hsub : ((live.filter inUse).map Row.plt).Sublist (live.map Row.plt) := List.filter_sublist.map _
  have hnodup : (P.plt f :: (live.filter inUse).map Row.plt).Nodup :=
    List.nodup_cons.mpr ⟨fun hmem => hnew (hsub.subset hmem), H.distinct.sublist hsub⟩
  have hopen : P.plt f :: (live.filter inUse).map Row.plt ⊆ (((f, lr) :: stack).map fun x => P.plt x.1).dedup := by
    intro plt hplt
    rw [List.mem_dedup]
    rcases List.mem_cons.mp hplt with rfl | hplt
    · exact List.mem_cons_self
    · -- a row in use counts an open call
      obtain ⟨row, hrow, rfl⟩ := List.mem_map.mp hplt
      obtain ⟨hrow, hused⟩ := List.mem_filter.mp hrow
      have hcount : row.referenceCount ≠ 0 := of_decide_eq_true hused
      rw [H.counts row hrow] at hcount
      obtain ⟨c, hc, hc'⟩ := List.countP_pos_iff.mp (Nat.pos_of_ne_zero hcount)
      obtain ⟨hcplt, -⟩ := of_decide_eq_true hc'
      have hmem : (c.plt, c.lr) ∈ stack.map fun x => (P.plt x.1, x.2) := h.calls ▸ List.mem_map_of_mem hc
      obtain ⟨x, hx, he⟩ := List.mem_map.mp hmem
      refine List.mem_cons_of_mem _ (List.mem_map.mpr ⟨x, hx, ?_⟩)
      rw [← hcplt]
      exact congrArg Prod.fst he
  have hle := (List.subperm_of_subset hnodup hopen).length_le
  rw [List.length_cons, List.length_map, hfull] at hle
  unfold functions at hfew
  omega

/-- With calls of at most 19 functions open, every run of the program is one under the cache. -/
theorem cached_of_plain (hs : P.Fresh s) (is : List (Op ι))
    (hfew : Throughout P.plainStep (fun stack => P.functions stack ≤ CACHE_TABLE_SIZE - 1) [] is) :
    ∃ os stack s', run P.plainStep [] is = some (os, stack) ∧ run P.step s is = some (os, s') := by
  have hsim : ∀ stack s i o stack', Simulates P s stack → P.plainStep stack i = some (o, stack') →
      P.functions stack' ≤ CACHE_TABLE_SIZE - 1 → ∃ s', P.step s i = some (o, s') ∧ Simulates P s' stack' := by
    intro stack s i o stack' h hst hfew
    cases i with
    | call f lr =>
      cases hst
      obtain ⟨live, H⟩ := h.cached
      rcases H.call f lr with ⟨hblocked, -⟩ | ⟨-, s₁, c, hcall, he⟩
      · exact absurd hblocked (h.not_blocked H hfew)
      · exact ⟨s₁, h.call hcall he⟩
    | ret =>
      rcases h.ret with ⟨rfl, -⟩ | ⟨f, lr, rest, s₁, rfl, hst₁, h'⟩
      · cases hst
      · cases hst
        exact ⟨s₁, hst₁, h'⟩
  obtain ⟨os, stack, s', hplain, hcached, -⟩ :=
    hfew.simulated (fun stack s => Simulates P s stack) hsim is (Simulates.start hs)
  exact ⟨os, stack, s', hplain, hcached⟩

theorem cached_of_plain_nested : ∃ os s',
    run twoFunctions.step twoFunctions.initial [.call true 0, .call false 1, .ret, .ret] = some (os, s') := by
  have hfew : Throughout twoFunctions.plainStep (fun stack => twoFunctions.functions stack ≤ CACHE_TABLE_SIZE - 1) []
      [.call true 0, .call false 1, .ret, .ret] :=
    ⟨by decide, _, _, rfl, by decide, _, _, rfl, by decide, _, _, rfl, by decide, _, _, rfl,
      (by decide : twoFunctions.functions [] ≤ CACHE_TABLE_SIZE - 1)⟩
  obtain ⟨os, stack, s', -, hrun⟩ := cached_of_plain fresh_initial _ hfew
  exact ⟨os, s', hrun⟩

end Image

end EDarts.SoftCache
