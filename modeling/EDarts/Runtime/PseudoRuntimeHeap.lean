/-
  EDarts.Runtime.PseudoRuntimeHeap — the heap of a consumer of the pseudo runtime (see
  `EDarts.Runtime.PseudoRuntime`).

  `Heap` says that the threaded procedures a consumer has made lie end to end from
  `TP_HEAP_LOCATION` to its heap pointer, each at rest in a run of its graph. The heap is never
  freed: all of this is as long as it ends below `LOCAL_MEM_LOCATION` (`Fits`).

  - `Heap.here`, `Heap.next`: the walk finds each threaded procedure at its place.
  - `Heap.visit`: the visit of a slot keeps the heap.
  - `Heap.create`: the construction puts a new one behind the last, with a slot that is ready.
-/

import EDarts.Runtime.PseudoRuntimeProofs

namespace EDarts.PseudoRuntime

open Lib Assets TpClosure ThreadedProcedure Dataflow

namespace Program

variable (P : Program)

def init (x : Invocation) : Initialization := (P.code x.1).initialization x.2

/-- A threaded procedure of the program, with arguments of its types. -/
def Invoked (x : Invocation) : Prop := x.1 ∈ P.tps ∧ ∃ args : Args x.1.argTypes, args.fields = x.2

/-- Each slot waits for exactly the decrements of its threaded procedure's code, and none is
    reset to 0. -/
structure Balanced : Prop where
  balanced : ∀ x, P.Invoked x → (P.graph (P.init x)).Balanced
  resetDep : ∀ x, P.Invoked x → ∀ A ∈ (P.init x).slots, A.resetDep ≠ 0

/-- The cells of the threaded procedures. -/
def heapCells (xs : List Invocation) : Nat := (xs.map fun x => (P.init x).slots.length + 1).sum

/-- They fit below the consumer's local memory. -/
def Fits (xs : List Invocation) : Prop := TP_HEAP_LOCATION.toNat + 40 * P.heapCells xs ≤ LOCAL_MEM_LOCATION.toNat

end Program

variable {P : Program} {c : Consumer} {tps : List Tp}

variable (P) in
structure Heap (c : Consumer) (tps : List Tp) : Prop where
  tiles : Tiles Cell.bytes c.mem TP_HEAP_LOCATION.toNat (tps.flatMap Tp.cells) c.myTpHeap.toNat
  top : c.myTpHeap.toNat = TP_HEAP_LOCATION.toNat + 40 * P.heapCells c.created
  length : tps.length = c.created.length
  count : c.numCreatedTps = c.created.length
  invoked : ∀ x ∈ c.created, P.Invoked x
  runs : ∀ i x t, c.created[i]? = some x → tps[i]? = some t → ∃ σ, Runs P (P.init x) σ none [] (c.log i) t
  unused : ∀ i, c.created.length ≤ i → c.log i = []

/-- Where the `i`th threaded procedure is. -/
def address (tps : List Tp) (i : Nat) : Nat := TP_HEAP_LOCATION.toNat + 40 * ((tps.take i).flatMap Tp.cells).length

theorem Heap.start (mem : Memory) : Heap P (.start mem) [] where
  tiles := rfl
  top := rfl
  length := rfl
  count := rfl
  invoked := fun _ h => absurd h List.not_mem_nil
  runs := fun _ _ _ _ ht => by cases ht
  unused := fun _ _ => rfl

/-! ## The walk -/

section Walk

variable {i : Nat} {t : Tp} {tp : Word}

theorem split_at (ht : tps[i]? = some t) : tps = tps.take i ++ t :: tps.drop (i + 1) := by
  obtain ⟨hi, rfl⟩ := List.getElem?_eq_some_iff.mp ht
  rw [List.getElem_cons_drop, List.take_append_drop]

theorem Heap.here (H : Heap P c tps) (hfits : P.Fits c.created) (ht : tps[i]? = some t) (htp : tp.toNat = address tps i) :
    TpAt c.mem TP_HEAP_LOCATION.toNat ((tps.take i).flatMap Tp.cells) tp t ((tps.drop (i + 1)).flatMap Tp.cells)
      c.myTpHeap.toNat := by
  refine ⟨?_, htp, ?_⟩
  · have htiles := H.tiles
    rw [split_at ht, List.flatMap_append, List.flatMap_cons] at htiles
    exact htiles
  · have hlocal : LOCAL_MEM_LOCATION.toNat < 2 ^ 32 := LOCAL_MEM_LOCATION.isLt
    have hle : c.myTpHeap.toNat ≤ LOCAL_MEM_LOCATION.toNat := H.top ▸ hfits
    omega

/-- The invocation of a threaded procedure on the heap, and its run. -/
theorem Heap.run (H : Heap P c tps) (ht : tps[i]? = some t) :
    ∃ x σ, c.created[i]? = some x ∧ x ∈ c.created ∧ Runs P (P.init x) σ none [] (c.log i) t := by
  have hi : i < c.created.length := H.length ▸ (List.getElem?_eq_some_iff.mp ht).1
  have hx := List.getElem?_eq_getElem hi
  obtain ⟨σ, R⟩ := H.runs i _ t hx ht
  exact ⟨_, σ, hx, List.getElem_mem hi, R⟩

theorem Heap.numSyncSlots (H : Heap P c tps) (hfits : P.Fits c.created) (ht : tps[i]? = some t)
    (htp : tp.toNat = address tps i) : (metadataAt c.mem tp).numSyncSlots.toNat = t.slots.length := by
  obtain ⟨x, σ, -, -, R⟩ := H.run ht
  rw [(H.here hfits ht htp).metadata, R.numSyncSlots, R.length]

/-- The next threaded procedure is behind the slots. -/
theorem Heap.next (H : Heap P c tps) (hfits : P.Fits c.created) (ht : tps[i]? = some t)
    (htp : tp.toNat = address tps i) :
    (tp + 40 + 40 * (metadataAt c.mem tp).numSyncSlots).toNat = address tps (i + 1) := by
  have hT := H.here hfits ht htp
  have hend := hT.end_eq
  have hsmall := hT.small
  have hn := H.numSyncSlots hfits ht htp
  have htake : tps.take (i + 1) = tps.take i ++ [t] := by
    rw [List.take_add_one, ht, Option.toList_some]
  rw [address, htake, List.flatMap_append, List.flatMap_singleton, List.length_append, Tp.cells_length]
  rw [address] at htp
  rw [BitVec.toNat_add, BitVec.toNat_add, BitVec.toNat_mul, hn, show (40 : Word).toNat = 40 from rfl]
  omega

end Walk

/-! ## A visit -/

section Visit

variable {i : Nat} {t : Tp} {tp : Word}

/-- One threaded procedure has moved on. -/
theorem Heap.update (H : Heap P c tps) {c' : Consumer} (hkeeps : Keeps i c c') {t' : Tp} (ht : tps[i]? = some t)
    {x : Invocation} (hx : c.created[i]? = some x) {σ : State (Fin (P.init x).slots.length)}
    (htiles : Tiles Cell.bytes c'.mem TP_HEAP_LOCATION.toNat ((tps.set i t').flatMap Tp.cells) c'.myTpHeap.toNat)
    (R : Runs P (P.init x) σ none [] (c'.log i) t') : Heap P c' (tps.set i t') := by
  have hi := (List.getElem?_eq_some_iff.mp ht).1
  have hrest := hkeeps.rest
  have hcreated : c'.created = c.created := by rw [hrest]
  have hnum : c'.numCreatedTps = c.numCreatedTps := by rw [hrest]
  have htop : c'.myTpHeap = c.myTpHeap := by rw [hrest]
  refine ⟨htiles, ?_, ?_, ?_, ?_, ?_, ?_⟩
  · rw [htop, hcreated, H.top]
  · rw [List.length_set, hcreated, H.length]
  · rw [hnum, hcreated, H.count]
  · rw [hcreated]
    exact H.invoked
  · intro k y u hy hu
    rw [hcreated] at hy
    by_cases hki : k = i
    · subst hki
      rw [hx] at hy
      cases hy
      rw [List.getElem?_set_self hi] at hu
      cases hu
      exact ⟨σ, R⟩
    · rw [List.getElem?_set_ne (Ne.symm hki)] at hu
      rw [hkeeps.logs k hki]
      exact H.runs k y u hy hu
  · intro k hk
    rw [hcreated] at hk
    have hki : k ≠ i := by
      have := H.length
      omega
    rw [hkeeps.logs k hki]
    exact H.unused k hk

/-- The visit of a slot passes it, if it waits for something, or fires its codelets. -/
theorem Heap.visit (H : Heap P c tps) (hB : P.Balanced) (hfits : P.Fits c.created) (ht : tps[i]? = some t)
    (htp : tp.toNat = address tps i) {j : Nat} (hj : j < t.slots.length) (core : Word) :
    (P.visit core i tp j (getSyncSlot tp j) c = some c ∧ t.slots[j].currentDep ≠ 0) ∨
      ∃ c' t', P.visit core i tp j (getSyncSlot tp j) c = some c' ∧ c'.stillExecuting = true ∧
        t'.slots.length = t.slots.length ∧ Heap P c' (tps.set i t') := by
  have hT := H.here hfits ht htp
  by_cases hzero : t.slots[j].currentDep = 0
  · obtain ⟨x, σ, hx, hmem, R⟩ := H.run ht
    have hinvoked := H.invoked x hmem
    obtain ⟨args, hargs⟩ := hinvoked.2
    have hlt := P.codelets_lt x.1 hinvoked.1 x.2
    have hj' : j < (P.init x).slots.length := R.length ▸ hj
    have hreset := hB.resetDep x hinvoked _ (List.get_mem (P.init x).slots ⟨j, hj'⟩)
    obtain ⟨c', σ', t', hvisit, hstill, hT', R'⟩ := visit_zero (j := ⟨j, hj'⟩) core (hB.balanced x hinvoked) hlt
      hreset hT R hj hzero
    refine .inr ⟨c', t', hvisit, hstill, R'.length.trans R.length.symm, H.update (visit_keeps hvisit) ht hx ?_ R'⟩
    have htop : c'.myTpHeap = c.myTpHeap := by rw [(visit_keeps hvisit).rest]
    rw [List.set_eq_take_append_cons_drop, if_pos (List.getElem?_eq_some_iff.mp ht).1, List.flatMap_append,
      List.flatMap_cons, htop]
    exact hT'.tiles
  · exact .inl ⟨visit_ne hT hj hzero, hzero⟩

end Visit

/-! ## The construction -/

/-- But for the memory and the two pointers to free memory. -/
structure Allocates (c c' : Consumer) : Prop where
  rest : c' = { c with mem := c'.mem, myLocalMemHeap := c'.myLocalMemHeap, myDRAMMemHeap := c'.myDRAMMemHeap }

theorem allocateLocal_rest (base0_0Address tp : Word) (c : Consumer) :
    Allocates c (Consumer.allocateLocal base0_0Address tp c) := by
  simp only [Consumer.allocateLocal]
  split <;> exact ⟨rfl⟩

theorem allocateDRAM_rest (tp : Word) (c : Consumer) : Allocates c (Consumer.allocateDRAM tp c) := by
  simp only [Consumer.allocateDRAM]
  split <;> exact ⟨rfl⟩

/-- The construction notes the invocation. -/
theorem createTp_created {core p : Word} {newMetadata : TpMetadata} {closures : Memory} {c' : Consumer} {x : Invocation}
    (hexec : TpClosure.userInitCtorExec P.tps closures p = some x)
    (h : P.createTp core newMetadata closures p c = some c') : c'.created = c.created ++ [x] ∧ c'.seen = c.seen := by
  simp only [Program.createTp, hexec, Option.bind_some] at h
  obtain ⟨D, -, h⟩ := Option.bind_eq_some_iff.mp h
  have hkeeps := (signalAll_keeps h).rest
  have hlocal := (allocateLocal_rest P.base0_0Address c.myTpHeap (P.construct D newMetadata c)).rest
  have hdram := (allocateDRAM_rest c.myTpHeap (Consumer.allocateLocal P.base0_0Address c.myTpHeap (P.construct D newMetadata c))).rest
  rw [hkeeps, hdram, hlocal]
  exact ⟨rfl, rfl⟩

section Create

variable {a b : Nat} {before behind : List Cell} {tp : Word} {t : Tp}

theorem allocateLocal_at (base0_0Address : Word) (hT : TpAt c.mem a before tp t behind b) :
    ∃ m, m.numSyncSlots = t.metadata.numSyncSlots ∧
      TpAt (Consumer.allocateLocal base0_0Address tp c).mem a before tp { t with metadata := m } behind b := by
  simp only [Consumer.allocateLocal, hT.metadata]
  split
  · refine ⟨_, ?_, hT.storeMetadata _⟩
    rfl
  · exact ⟨_, rfl, hT⟩

theorem allocateDRAM_at (hT : TpAt c.mem a before tp t behind b) :
    ∃ m, m.numSyncSlots = t.metadata.numSyncSlots ∧
      TpAt (Consumer.allocateDRAM tp c).mem a before tp { t with metadata := m } behind b := by
  simp only [Consumer.allocateDRAM, hT.metadata]
  split
  · refine ⟨_, ?_, hT.storeMetadata _⟩
    rfl
  · exact ⟨_, rfl, hT⟩

/-- What the construction does before the user's constructor is called. -/
theorem construct_at (H : Heap P c tps) {D : TpDefinition} (newMetadata : TpMetadata) (hsmall : c.myTpHeap.toNat + 40 < 2 ^ 32) :
    ∃ m, m.numSyncSlots = (P.code D).numSyncSlots ∧
      P.construct D newMetadata c = { c with
        mem := storeMetadata c.mem c.myTpHeap m
        numCreatedTps := c.numCreatedTps + 1
        myTpHeap := c.myTpHeap + 40 + 40 * (P.code D).numSyncSlots } ∧
      TpAt (storeMetadata c.mem c.myTpHeap m) TP_HEAP_LOCATION.toNat (tps.flatMap Tp.cells) c.myTpHeap ⟨m, []⟩ []
        (c.myTpHeap.toNat + 40) := by
  have hT := TpAt.new H.tiles hsmall (genericMetadataCtro (BitVec.ofNat 32 c.numCreatedTps) (P.code D).numSyncSlots
    (P.code D).sizeDRAM (P.code D).sizeLocal (P.code D).sizeDist newMetadata)
  refine ⟨_, ?_, ?_, hT⟩
  · rfl
  · rw [Program.construct, hT.metadata]
    rfl

/-- A slot behind its assignment waits for all it waits for. -/
theorem SlotAt.assigned {A : Assignment} {s : SyncSlot} (h : Assigned A s) {visited : Prop} (hvisited : ¬ visited) :
    SlotAt A visited 0 0 s where
  free := h.free
  fire := h.fire
  numCodelets := h.numCodelets
  resetDep := h.resetDep
  zero := fun hv => absurd hv hvisited
  counts := fun _ => .inl ⟨rfl, by rw [h.currentDep, Nat.add_zero]⟩

/-- Before the constructor's calls of `syncSlotDecDep`. -/
theorem Runs.start {I : Initialization} {m : TpMetadata} {ss : List SyncSlot} (hm : m.numSyncSlots.toNat = I.slots.length)
    (hss : List.Forall₂ Assigned I.slots ss) :
    Runs P I State.start none (slotsOf _ I.startup) [] ⟨m, ss⟩ ∧ Fresh I State.start ⟨m, ss⟩ := by
  have hslot : ∀ (k : Fin I.slots.length) (hk : k.val < ss.length), Assigned (I.slots.get k) ss[k.val] := by
    intro k hk
    exact List.Forall₂.get hss k.isLt hk
  refine ⟨⟨.init rfl, rfl, rfl, ?_, hm, hss.length_eq.symm, fun k hk => .assigned (hslot k hk) (by simp)⟩, fun _ => rfl, ?_⟩
  · exact List.append_nil _
  · intro k hk
    rw [(hslot k hk).currentDep]
    rfl

/-- A new threaded procedure behind the last one. -/
theorem Heap.create (H : Heap P c tps) (hB : P.Balanced) {x : Invocation} (hx : P.Invoked x)
    (hfits : P.Fits (c.created ++ [x])) {closures : Memory} {p : Word}
    (hmetadata : metadataCtor P.tps closures p = some x.1)
    (hexec : TpClosure.userInitCtorExec P.tps closures p = some x) (core : Word) (newMetadata : TpMetadata) :
    ∃ c' t σ, P.createTp core newMetadata closures p c = some c' ∧ Heap P c' (tps ++ [t]) ∧
      Runs P (P.init x) σ none [] (c'.log c.created.length) t ∧ Fresh (P.init x) σ t := by
  have hcells : P.heapCells (c.created ++ [x]) = P.heapCells c.created + ((P.init x).slots.length + 1) := by
    simp only [Program.heapCells, List.map_append, List.sum_append, List.map_singleton, List.sum_singleton]
  have hnum : (P.code x.1).numSyncSlots.toNat = (P.init x).slots.length := ((P.code x.1).slots_length x.2).symm
  have hlocal : LOCAL_MEM_LOCATION.toNat < 2 ^ 31 := by decide
  have htop := H.top
  rw [Program.Fits, hcells] at hfits
  obtain ⟨m₀, hm₀, hconstruct, hT₀⟩ := construct_at (D := x.1) H newMetadata (by omega)
  have hT₀' : TpAt (P.construct x.1 newMetadata c).mem TP_HEAP_LOCATION.toNat (tps.flatMap Tp.cells) c.myTpHeap ⟨m₀, []⟩ []
      (c.myTpHeap.toNat + 40) := by
    rw [hconstruct]
    exact hT₀
  obtain ⟨m₁, hm₁, hT₁⟩ := allocateLocal_at P.base0_0Address hT₀'
  obtain ⟨m₂, hm₂, hT₂⟩ := allocateDRAM_at hT₁
  have hlocalRest := (allocateLocal_rest P.base0_0Address c.myTpHeap (P.construct x.1 newMetadata c)).rest
  have hdramRest := (allocateDRAM_rest c.myTpHeap
    (Consumer.allocateLocal P.base0_0Address c.myTpHeap (P.construct x.1 newMetadata c))).rest
  generalize hc₁ : Consumer.allocateLocal P.base0_0Address c.myTpHeap (P.construct x.1 newMetadata c) = c₁ at *
  generalize hc₂ : Consumer.allocateDRAM c.myTpHeap c₁ = c₂ at *
  rw [hlocalRest, hconstruct] at hdramRest
  obtain ⟨ss, hss, hT₃⟩ := hT₂.assignSlots core (P.init x).slots (by omega)
  obtain ⟨R₃, hF⟩ := Runs.start (P := P) (m := m₂) (by rw [hm₂, hm₁, hm₀, hnum]) hss
  have hlog : c₂.log c.created.length = [] := by
    rw [hdramRest]
    exact H.unused _ (Nat.le_refl _)
  rw [← hlog] at R₃
  obtain ⟨c', σ', t', hall, hT', R', -, hfresh⟩ := signalAll_eq core (i := c.created.length) (hB.balanced x hx)
    (c := { c₂ with mem := assignSlots core c.myTpHeap 0 (P.init x).slots c₂.mem, created := c₂.created ++ [x] }) hT₃ R₃
  rw [slotsOf_val (P.init x).startup_lt] at hall
  have hkeeps := (signalAll_keeps hall).rest
  have hlogs := (signalAll_keeps hall).logs
  have hcreated : c'.created = c.created ++ [x] := by rw [hkeeps, hdramRest]
  have htop' : c'.myTpHeap = c.myTpHeap + 40 + 40 * (P.code x.1).numSyncSlots := by rw [hkeeps, hdramRest]
  have hend : c'.myTpHeap.toNat = c.myTpHeap.toNat + 40 + 40 * (P.init x).slots.length := by
    rw [htop', BitVec.toNat_add, BitVec.toNat_add, BitVec.toNat_mul, hnum, show (40 : Word).toNat = 40 from rfl]
    omega
  have hother : ∀ i ≠ c.created.length, c'.log i = c.log i := by
    intro i hi
    rw [hlogs i hi, hdramRest]
  refine ⟨c', t', σ', ?_, ⟨?_, ?_, ?_, ?_, ?_, ?_, ?_⟩, R', hfresh hF⟩
  · rw [Program.createTp, hmetadata, Option.bind_some, hexec, Option.bind_some, hc₁, hc₂, H.count]
    exact hall
  · have htiles := hT'.tiles
    rw [List.append_nil] at htiles
    rw [List.flatMap_append, List.flatMap_singleton, hend]
    exact htiles
  · rw [hend, hcreated, hcells, H.top]
    omega
  · rw [hcreated, List.length_append, List.length_append, H.length]
    rfl
  · have hcount : c'.numCreatedTps = c.numCreatedTps + 1 := by rw [hkeeps, hdramRest]
    rw [hcount, hcreated, H.count, List.length_append, List.length_singleton]
  · rw [hcreated]
    intro y hy
    rcases List.mem_append.mp hy with hy | hy
    · exact H.invoked y hy
    · exact List.mem_singleton.mp hy ▸ hx
  · intro i y u hy hu
    rw [hcreated] at hy
    rcases Nat.lt_trichotomy i c.created.length with hi | rfl | hi
    · rw [List.getElem?_append_left hi] at hy
      rw [List.getElem?_append_left (by rw [H.length]; exact hi)] at hu
      rw [hother i (Nat.ne_of_lt hi)]
      exact H.runs i y u hy hu
    · rw [List.getElem?_concat_length] at hy
      rw [← H.length, List.getElem?_concat_length] at hu
      cases hy
      cases hu
      exact ⟨σ', R'⟩
    · rw [List.getElem?_eq_none (by rw [List.length_append, List.length_singleton]; omega)] at hy
      cases hy
  · intro i hi
    rw [hcreated, List.length_append, List.length_singleton] at hi
    rw [hother i (by omega)]
    exact H.unused i (by omega)

end Create

end EDarts.PseudoRuntime
