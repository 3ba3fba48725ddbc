/-
  EDarts.Assets.TpClosuresQueueGrows — a closures queue that nobody pops.

  The head stays at the start of the space and the closures lie behind it in the order of the
  pushes (`Grows`): there is no wrap and no padding. So the bytes pushed tell where the tail is
  and whether the next push succeeds (`Grows.push_eq`), and a closure that is refused once is
  refused for ever.
-/

import EDarts.Assets.TpClosuresQueueRuns

namespace EDarts.Assets.TpClosuresQueue

open Lib Multithreading

variable {queue : Word} {N : Nat} {h h' : Hist}

/-- The bytes of closures. -/
def bytesOf (L : List GenericTpClosure) : Nat := (L.map fun c => c.bytes.length).sum

/-- All closures pushed lie in the queue from the start of its space on. -/
structure Grows (queue : Word) (N : Nat) (h : Hist) : Prop where
  lays : Lays queue N h.q h.pushed
  head : h.q.headAddress = initAddress queue

theorem Grows.start (S : Space queue N) {newSize : Word} (hN : newSize.toNat = N) (q : TpClosuresQueue) :
    Grows queue N (started queue newSize q) := by
  refine ⟨lays_init S hN q, ?_⟩
  simp only [started, initTpClosuresQueue, S.valid, ne_eq, not_true_eq_false, if_false]

theorem Grows.tail (S : Space queue N) (G : Grows queue N h) :
    h.q.tailAddress.toNat = base queue + bytesOf h.pushed ∧ bytesOf h.pushed ≤ N := by
  have hhead : h.q.headAddress.toNat = base queue := by rw [G.head, initAddress_toNat S]
  have hlay := G.lays.layout
  generalize h.pushed = L at hlay ⊢
  cases hlay with
  | straight hp hb ht he hn =>
    have hsum := ht.end_sum
    rw [hhead] at hsum
    have hle : base queue + bytesOf L ≤ base queue + N := hsum ▸ he
    exact ⟨hsum, by omega⟩
  | wrapped hb htf hpe htb hlt =>
    have hle := htb.le
    omega

theorem Grows.room_iff (S : Space queue N) (G : Grows queue N h) {c : GenericTpClosure}
    (hc : 12 + c.sizeOfArgs.toNat < 2 ^ 32) :
    calculateMaxFreeSpaceQueue queue h.q ≤ tpSize c.sizeOfArgs ↔ ¬ bytesOf h.pushed + c.bytes.length < N := by
  obtain ⟨htail, hle⟩ := G.tail S
  have hhead : h.q.headAddress.toNat = base queue := by rw [G.head, initAddress_toNat S]
  have hfree := calculateMaxFreeSpaceQueue_toNat S G.lays.size (by omega) (by omega)
  rw [BitVec.le_def, tpSize_toNat hc, hfree, if_pos (by omega), hhead, htail, GenericTpClosure.bytes_length]
  omega

/-- A push succeeds exactly if the bytes stay below the size of the space. -/
theorem Grows.push_eq (S : Space queue N) (G : Grows queue N h) (core : Word) {c : GenericTpClosure}
    (hc : 12 + c.sizeOfArgs.toNat < 2 ^ 32) :
    pushTpClosureQueue queue core c h.q = some (if bytesOf h.pushed + c.bytes.length < N then
      (.successOp, insert queue c h.q) else (.notEnoughSpace, h.q)) := by
  rw [push_free core c S.valid G.lays.free]
  by_cases hroom : bytesOf h.pushed + c.bytes.length < N
  · rw [if_pos hroom, if_neg fun hfull => (G.room_iff S hc).mp hfull hroom]
  · rw [if_neg hroom, if_pos ((G.room_iff S hc).mpr hroom)]

/-- No call takes a closure back from the closures pushed. -/
theorem histStep_pushed {op : Op} {out : Out} (hst : histStep queue h op = some (out, h')) : h.pushed <+: h'.pushed := by
  obtain ⟨r, -, he⟩ := Option.map_eq_some_iff.mp hst
  cases he
  unfold Hist.note
  split
  · exact List.prefix_append _ _
  · exact List.prefix_rfl
  · exact List.prefix_rfl
  · exact List.prefix_rfl
  · exact List.prefix_rfl

theorem bytesOf_mono {L L' : List GenericTpClosure} (hL : L <+: L') : bytesOf L ≤ bytesOf L' := by
  obtain ⟨more, rfl⟩ := hL
  unfold bytesOf
  rw [List.map_append, List.sum_append]
  exact Nat.le_add_right _ _

/-- Nobody pops. -/
def Keeping : Op → Prop
  | .push _ c => 12 + c.sizeOfArgs.toNat < 2 ^ 32
  | .pop _ | .popAndDisown _ => False
  | _ => True

theorem insert_headAddress (queue : Word) (c : GenericTpClosure) (q : TpClosuresQueue) :
    (insert queue c q).headAddress = q.headAddress := by
  simp only [insert]
  split
  · rfl
  · split <;> rfl

theorem Grows.step (S : Space queue N) (G : Grows queue N h) {op : Op} (hop : Keeping op) {out : Out}
    (hst : histStep queue h op = some (out, h')) : Grows queue N h' := by
  obtain ⟨r, hr, he⟩ := Option.map_eq_some_iff.mp hst
  cases he
  cases op with
  | push core c =>
    rw [TpClosuresQueue.step, G.push_eq S core hop] at hr
    cases hr
    by_cases hroom : bytesOf h.pushed + c.bytes.length < N
    · rw [if_pos hroom]
      exact ⟨G.lays.push S hop fun hfull => (G.room_iff S hop).mp hfull hroom, (insert_headAddress queue c h.q).trans G.head⟩
    · rw [if_neg hroom]
      exact G
  | own core =>
    rw [TpClosuresQueue.step, own_free core S.valid G.lays.free] at hr
    cases hr
    split
    · exact G
    · exact ⟨G.lays.owner core, G.head⟩
  | disown core =>
    cases hr
    simp only [disownTpClosureQueue, S.valid, ne_eq, not_true_eq_false, if_false]
    split
    · exact G
    · exact ⟨G.lays.owner 0, G.head⟩
  | peak core =>
    cases hr
    have hsame : (h.note h.q (.peak core) (peakTopElement queue core h.q).1).q = h.q ∧
        (h.note h.q (.peak core) (peakTopElement queue core h.q).1).pushed = h.pushed := by
      cases (peakTopElement queue core h.q).1 <;> exact ⟨rfl, rfl⟩
    refine ⟨?_, ?_⟩
    · rw [hsame.1, hsame.2]
      exact G.lays
    · rw [hsame.1]
      exact G.head
  | pop core => exact hop.elim
  | popAndDisown core => exact hop.elim

end EDarts.Assets.TpClosuresQueue
