import Hrx.Frontier.Equiv.Merge
import Hrx.Tracker.Join

/-!
# A join keeps its inputs

The merge loop places each point of a frontier in the sorted entries behind the position it has
reached, so that a whole merge is the join of two clocks (`toList_merge`).  Packing goes from the
last chunk to the first: the entries of the chunks still to be packed lie below every byte that was
written, and a chunk ends before the header of the next (`pack_spec`).
-/

namespace Hrx.Tracker

open ByteStore Frontier Function List VectorClock

/-! ### Placing one point -/

/-- Places a point among entries none of which has a smaller axis. -/
def placePoint (point : FrontierEntry) : List FrontierEntry → List FrontierEntry
  | [] => [point]
  | x :: l => if x.axis = point.axis then ⟨x.axis, max x.epoch point.epoch⟩ :: l
    else point :: x :: l

def isBefore (axis : ℕ) (x : FrontierEntry) : Bool := x.axis < axis

lemma join_cons_of_lt {x : FrontierEntry} {l r : List FrontierEntry}
    (h : ∀ y ∈ r, x.axis < y.axis) : join (x :: l) r = x :: join l r := by
  cases r with
  | nil => simp
  | cons y =>
    have hlt := h y mem_cons_self
    rw [join_cons_cons, if_neg hlt.ne, if_pos hlt]

/-- The join with a first point, as the loop computes it. -/
lemma join_cons_right (point : FrontierEntry) {rest : List FrontierEntry}
    (h : ∀ y ∈ rest, point.axis < y.axis) (l : List FrontierEntry) :
    join l (point :: rest) = l.takeWhile (isBefore point.axis) ++
      join (placePoint point (l.dropWhile (isBefore point.axis))) rest := by
  induction l with
  | nil => simp [placePoint, join_cons_of_lt h]
  | cons x l ih =>
    rw [join_cons_cons]
    rcases lt_trichotomy x.axis point.axis with hlt | heq | hgt
    · rw [if_neg hlt.ne, if_pos hlt, takeWhile_cons_of_pos (by simpa [isBefore] using hlt),
        dropWhile_cons_of_pos (by simpa [isBefore] using hlt), ih, cons_append]
    · rw [if_pos heq, takeWhile_cons_of_neg (by simp [isBefore, heq]),
        dropWhile_cons_of_neg (by simp [isBefore, heq]), placePoint, if_pos heq, nil_append,
        join_cons_of_lt (by simpa [heq] using h)]
    · have hnot : ¬isBefore point.axis x = true := by simpa [isBefore] using hgt.le
      rw [if_neg hgt.ne', if_neg hgt.not_gt, takeWhile_cons_of_neg hnot,
        dropWhile_cons_of_neg hnot, placePoint, if_neg hgt.ne', nil_append,
            join_cons_of_lt h]

namespace Join

/-! ### The entry array -/

section entries

variable {entries : ℕ → FrontierEntry} {n position : ℕ}

lemma drop_firstEntries (h : position < n) :
    (firstEntries entries n).drop position =
      entries position :: (firstEntries entries n).drop (position + 1) := by
  have hlen : position < (firstEntries entries n).length := by rwa [length_firstEntries]
  rw [drop_eq_getElem_cons hlen]
  simp [firstEntries]

/-- The loop stops behind the entries before the axis. -/
lemma seek_eq (axis : ℕ) {remaining : ℕ} (h : position + remaining = n) :
    seek entries axis remaining position =
      position + (((firstEntries entries n).drop position).takeWhile (isBefore axis)).length := by
  induction remaining generalizing position with
  | zero => simp [seek, drop_eq_nil_of_le, ← h]
  | succ remaining ih =>
    rw [seek, drop_firstEntries (by omega)]
    by_cases hlt : (entries position).axis < axis
    · rw [if_pos hlt, ih (by omega), takeWhile_cons_of_pos (by simpa [isBefore] using hlt),
        length_cons]
      omega
    · rw [if_neg hlt, takeWhile_cons_of_neg (by simpa [isBefore] using hlt)]
      rfl

lemma getElem?_firstEntries (i : ℕ) :
    (firstEntries entries n)[i]? = if i < n then some (entries i) else none := by
  by_cases hi : i < n <;> simp [firstEntries, hi]

lemma firstEntries_set (e : FrontierEntry) :
    firstEntries (update entries position e) n =
      (firstEntries entries n).set position e := by
  apply ext_getElem?
  intro i
  rw [List.getElem?_set, getElem?_firstEntries, getElem?_firstEntries, length_firstEntries]
  by_cases hi : position = i
  · simp [hi]
  · rw [if_neg hi, update_of_ne (Ne.symm hi)]

lemma firstEntries_insert (e : FrontierEntry) (h : position ≤ n) :
    firstEntries (update (moveUp entries position n) position e) (n + 1) =
      (firstEntries entries n).take position ++ e :: (firstEntries entries n).drop position := by
  apply ext_getElem?
  intro i
  have hlen : ((firstEntries entries n).take position).length = position := by simp [h]
  rw [getElem?_firstEntries]
  rcases lt_trichotomy i position with hlt | rfl | hgt
  · have hmove : ¬(position < i ∧ i ≤ n) := by omega
    rw [List.getElem?_append_left (by omega), List.getElem?_take_of_lt hlt, getElem?_firstEntries,
      if_pos (by omega), if_pos (by omega), update_of_ne hlt.ne, moveUp, if_neg hmove]
  · rw [List.getElem?_append_right (by omega), hlen, if_pos (by omega), update_self]
    simp
  obtain ⟨k, rfl⟩ : ∃ k, i = position + k + 1 := ⟨i - position - 1, by omega⟩
  rw [List.getElem?_append_right (by omega), hlen,
    show position + k + 1 - position = k + 1 by omega, List.getElem?_cons_succ, List.getElem?_drop,
    getElem?_firstEntries, update_of_ne (by omega), moveUp]
  by_cases hn : position + k < n
  · rw [if_pos (by omega), if_pos hn, if_pos (by omega), Nat.add_sub_cancel]
  · rw [if_neg (by omega), if_neg hn]

end entries

/-! ### Merging -/

variable {j : Join} {position : ℕ}

lemma toList_eq_firstEntries (j : Join) : j.toList = firstEntries j.entries j.entryCount := rfl

@[simp] lemma length_toList (j : Join) : j.toList.length = j.entryCount := by simp [toList]

variable {l₁ l₂ points : List FrontierEntry} {bytes' : ℕ → UInt8} {offset : ℕ}

/-- One round places its point behind the position. -/
lemma mergePoint_spec (hlist : j.toList = l₁ ++ l₂) (hposition : l₁.length = position)
    {point : FrontierEntry} (haxis : point.axis ≠ j.point.axis) :
    ∃ j' position', mergePoint (j, position) point = (j', position') ∧ j'.point = j.point ∧
      j'.entryCapacity = j.entryCapacity ∧
      j'.toList = (l₁ ++ l₂.takeWhile (isBefore point.axis)) ++
        placePoint point (l₂.dropWhile (isBefore point.axis)) ∧
      (l₁ ++ l₂.takeWhile (isBefore point.axis)).length = position' := by
  have hcount : j.entryCount = position + l₂.length := by
    rw [← length_toList, hlist, length_append, hposition]
  have hdrop : j.toList.drop position = l₂ := by rw [hlist, ← hposition, drop_left]
  have hsplit := takeWhile_append_dropWhile (p := isBefore point.axis) (l := l₂)
  generalize hbefore : l₂.takeWhile (isBefore point.axis) = before at *
  generalize hbehind : l₂.dropWhile (isBefore point.axis) = behind at *
  have hseek : seek j.entries point.axis (j.entryCount - position) position =
      (l₁ ++ before).length := by
    rw [seek_eq point.axis (show position + (j.entryCount - position) = j.entryCount by omega),
      ← toList_eq_firstEntries, hdrop, hbefore, length_append, hposition]
  have hwhole : j.toList = (l₁ ++ before) ++ behind := by rw [hlist, ← hsplit, append_assoc]
  have hentry : ∀ x l, behind = x :: l → j.entries (l₁ ++ before).length = x := by
    intro x l hx
    have hget : j.toList[(l₁ ++ before).length]? = some x := by rw [hwhole, hx]; simp
    have hlt : (l₁ ++ before).length < j.entryCount := by
      rw [← length_toList, hwhole, hx]
      simp
    rw [toList_eq_firstEntries, getElem?_firstEntries, if_pos hlt] at hget
    exact Option.some.inj hget
  have htake : j.toList.take (l₁ ++ before).length = l₁ ++ before := by rw [hwhole, take_left]
  have hrest : j.toList.drop (l₁ ++ before).length = behind := by rw [hwhole, drop_left]
  have hle : (l₁ ++ before).length ≤ j.entryCount := by
    have hlen : j.entryCount = (l₁ ++ before).length + behind.length := by
      rw [← length_toList, hwhole]
      exact length_append
    omega
  have hinsert : firstEntries (update (moveUp j.entries (l₁ ++ before).length j.entryCount)
      (l₁ ++ before).length point) (j.entryCount + 1) = l₁ ++ before ++ point :: behind := by
    rw [firstEntries_insert point hle, ← toList_eq_firstEntries, htake, hrest]
  unfold mergePoint
  dsimp only
  rw [if_neg haxis, hseek]
  cases behind with
  | nil =>
    have hend : ¬((l₁ ++ before).length < j.entryCount ∧
        (j.entries (l₁ ++ before).length).axis = point.axis) := by
      rw [← length_toList, hwhole, append_nil]
      omega
    rw [if_neg hend]
    exact ⟨_, _, rfl, rfl, rfl, hinsert, rfl⟩
  | cons x l =>
    have hlt : (l₁ ++ before).length < j.entryCount := by
      rw [← length_toList, hwhole]
      simp
    rw [hentry x l rfl, placePoint]
    by_cases heq : x.axis = point.axis
    · rw [if_pos ⟨hlt, heq⟩, if_pos heq]
      refine ⟨_, _, rfl, rfl, rfl, ?_, rfl⟩
      rw [toList_eq_firstEntries, firstEntries_set, ← toList_eq_firstEntries, hwhole]
      simp
    · rw [if_neg fun hc => heq hc.2, if_neg heq]
      exact ⟨_, _, rfl, rfl, rfl, hinsert, rfl⟩

/-- The points of a frontier that a merge places. -/
def offAxis (axis : ℕ) (points : List FrontierEntry) : List FrontierEntry :=
  points.filter (·.axis ≠ axis)

lemma foldl_mergePoint_spec (hpoints : points.Pairwise (·.axis < ·.axis))
    (hlist : j.toList = l₁ ++ l₂) (hposition : l₁.length = position) :
    (points.foldl mergePoint (j, position)).1.toList =
        l₁ ++ join l₂ (offAxis j.point.axis points) ∧
      (points.foldl mergePoint (j, position)).1.point = j.point ∧
      (points.foldl mergePoint (j, position)).1.entryCapacity = j.entryCapacity := by
  induction points generalizing j position l₁ l₂ with
  | nil => simpa [offAxis] using hlist
  | cons point points ih =>
    obtain ⟨hhead, hpoints⟩ := pairwise_cons.mp hpoints
    rw [foldl_cons]
    by_cases haxis : point.axis = j.point.axis
    · have hskip : mergePoint (j, position) point = (j, position) := if_pos haxis
      rw [hskip, offAxis, filter_cons_of_neg (by simpa using haxis)]
      exact ih hpoints hlist hposition
    obtain ⟨j', position', heq, hpoint, hcapacity, hlist', hposition'⟩ :=
      mergePoint_spec hlist hposition haxis
    obtain ⟨hl, hp, hc⟩ := ih hpoints hlist' hposition'
    rw [heq, offAxis, filter_cons_of_pos (by simpa using haxis), join_cons_right point,
      ← append_assoc]
    · exact ⟨by rw [hl, hpoint, offAxis], hp.trans hpoint, hc.trans hcapacity⟩
    · intro y hy
      exact hhead y (mem_of_mem_filter hy)

/-- A merge joins the points off the join's own axis. -/
lemma merge_spec (j : Join) {frontier : Frontier} (hvalid : frontier.Valid) :
    (j.merge (some frontier)).toList =
        join j.toList (offAxis j.point.axis frontier.toList) ∧
      (j.merge (some frontier)).point = j.point ∧
      (j.merge (some frontier)).entryCapacity = j.entryCapacity := by
  have h := foldl_mergePoint_spec (j := j) hvalid.1 (nil_append j.toList).symm rfl
  rwa [nil_append] at h

lemma epochAt_offAxis (axis a : ℕ) (points : List FrontierEntry) :
    epochAt (offAxis axis points) a = if a = axis then 0 else epochAt points a := by
  induction points with
  | nil => simp [offAxis]
  | cons point points ih =>
    unfold offAxis at ih ⊢
    by_cases haxis : point.axis = axis
    · rw [filter_cons_of_neg (by simpa using haxis), ih, epochAt_cons, haxis]
      by_cases ha : a = axis
      · simp [ha]
      · rw [if_neg ha, if_neg ha, if_neg (Ne.symm ha)]
    · rw [filter_cons_of_pos (by simpa using haxis), epochAt_cons, ih, epochAt_cons]
      by_cases ha : point.axis = a
      · rw [if_pos ha, if_pos ha, if_neg (ha ▸ haxis)]
      · rw [if_neg ha, if_neg ha]

def requiredEpoch (frontiers : List (Option Frontier)) (axis : ℕ) : ℕ :=
  frontiers.foldr (fun frontier epoch => max ((frontier.map (·.epochAt axis)).getD 0) epoch) 0

lemma offAxis_axes_subset (axis : ℕ) (points : List FrontierEntry) :
    axes (offAxis axis points) ⊆ axes points := by
  intro a ha
  obtain ⟨e, he, rfl⟩ := mem_axes.mp ha
  exact mem_axes.mpr ⟨e, mem_of_mem_filter he, rfl⟩

/-- What merges preserve and add, from any capture that is a clock. -/
lemma foldl_merge_spec {registered : Finset ℕ} (hclock : IsClock j.toList)
    (haxes : axes j.toList ⊆ registered) (frontiers : List (Option Frontier))
    (hfrontiers : ∀ f, some f ∈ frontiers → f.Valid ∧ axes f.toList ⊆ registered) :
    IsClock (frontiers.foldl merge j).toList ∧ axes (frontiers.foldl merge j).toList ⊆ registered ∧
      (frontiers.foldl merge j).entryCapacity = j.entryCapacity ∧
      ∀ a, epochAt (frontiers.foldl merge j).toList a =
        if a = j.point.axis then epochAt j.toList a
        else max (epochAt j.toList a) (requiredEpoch frontiers a) := by
  induction frontiers generalizing j with
  | nil => exact ⟨hclock, haxes, rfl, fun a => by simp [requiredEpoch]⟩
  | cons frontier frontiers ih =>
    have hrest : ∀ f, some f ∈ frontiers → f.Valid ∧ axes f.toList ⊆ registered :=
      fun f hf => hfrontiers f (mem_cons_of_mem _ hf)
    rw [foldl_cons]
    cases frontier with
    | none => simpa [requiredEpoch, merge] using ih hclock haxes hrest
    | some f =>
      obtain ⟨hvalid, hf⟩ := hfrontiers f mem_cons_self
      obtain ⟨hlist, hpoint, hcapacity⟩ := j.merge_spec hvalid
      have hoff : IsClock (offAxis j.point.axis f.toList) :=
        ⟨hvalid.1.sublist filter_sublist, fun e he => hvalid.2 e (mem_of_mem_filter he)⟩
      have hclock' : IsClock (j.merge (some f)).toList := hlist ▸ hclock.join hoff
      have haxes' : axes (j.merge (some f)).toList ⊆ registered := by
        rw [hlist, axes_join]
        exact Finset.union_subset haxes ((offAxis_axes_subset _ _).trans hf)
      obtain ⟨h₁, h₂, h₃, h₄⟩ := ih hclock' haxes' hrest
      refine ⟨h₁, h₂, h₃.trans hcapacity, fun a => ?_⟩
      rw [h₄ a, hpoint, hlist, epochAt_join hclock hoff, epochAt_offAxis]
      by_cases ha : a = j.point.axis
      · simp [ha]
      · simp [ha, requiredEpoch, Frontier.epochAt, max_assoc]

/-! ### Packing -/

lemma entryAt_congr {bytes : ℕ → UInt8} {offset' : ℕ}
    (h : ∀ k < entrySize, bytes' (offset' + k) = bytes (offset + k)) :
    entryAt bytes' offset' = entryAt bytes offset := by
  have hepoch : load bytes' (offset' + 8) 8 = load bytes (offset + 8) 8 := by
    apply load_congr
    intro k hk
    rw [Nat.add_assoc, Nat.add_assoc]
    exact h (8 + k) (Nat.add_lt_add_left hk 8)
  rw [entryAt, entryAt, hepoch, load_congr fun k hk => h k (hk.trans (by decide))]

/-- The entries of a chunk. -/
def chunk (l : List FrontierEntry) (ordinal : ℕ) : List FrontierEntry :=
  (l.drop (uint8Max * ordinal)).take uint8Max

lemma flatMap_chunk (l : List FrontierEntry) (n : ℕ) :
    (List.range n).flatMap (chunk l) = l.take (uint8Max * n) := by
  induction n with
  | zero => simp
  | succ n ih => rw [range_succ, flatMap_append, ih, Nat.mul_succ, take_add]; simp [chunk]

/-- The entries below `n` lie in the bytes from an offset on. -/
def Stored (j : Join) (base : ℕ) (bytes : ℕ → UInt8) (n : ℕ) : Prop :=
  ∀ i < n, i < j.entryCount → entryAt bytes (base + entrySize * i) = j.entries i

variable {base : ℕ} {bytes : ℕ → UInt8} {ordinal : ℕ}

/-- A round writes the header and the entries of its chunk only. -/
lemma packChunk_frame (j : Join) {x : ℕ} (h : x < frontierOffset base ordinal ∨
      frontierOffset base ordinal + frontierSize +
        min (j.entryCount - ordinal * uint8Max) uint8Max * entrySize ≤ x) :
    j.packChunk base bytes ordinal x = bytes x := by
  have hsize : frontierSize = 8 := rfl
  unfold packChunk frontierInitialize
  rw [fill_of_not_mem (by omega), update_of_ne (by omega), move, if_neg (by omega)]

/-- A round leaves its chunk behind its header. -/
lemma toList_packChunk (h : ordinal * uint8Max < j.entryCount)
    (hstored : j.Stored base bytes ((ordinal + 1) * uint8Max)) :
    (frontierAt (j.packChunk base bytes ordinal) (frontierOffset base ordinal)).toList =
      chunk j.toList ordinal := by
  have hsize : frontierSize = 8 := rfl
  generalize hcount : min (j.entryCount - ordinal * uint8Max) uint8Max = count
  have hle : count ≤ 255 := by
    rw [← hcount]
    exact min_le_right _ _
  have hheader : (frontierAt (j.packChunk base bytes ordinal) (frontierOffset base ordinal)).count =
      count := by
    unfold Frontier.count frontierAt packChunk frontierInitialize
    rw [hcount, fill_of_not_mem (by omega), update_self, UInt8.toNat_ofNat']
    omega
  have hentry : ∀ i < count, entryAt (j.packChunk base bytes ordinal)
      (frontierOffset base ordinal + frontierSize + entrySize * i) =
        j.entries (ordinal * uint8Max + i) := by
    intro i hi
    rw [← hstored (ordinal * uint8Max + i) (by rw [Nat.succ_mul]; omega) (by omega)]
    apply entryAt_congr
    intro k hk
    unfold packChunk frontierInitialize
    have hin : entrySize * i + k < count * entrySize := by
      calc entrySize * i + k < entrySize * i + entrySize := Nat.add_lt_add_left hk _
        _ = (i + 1) * entrySize := by rw [Nat.succ_mul, Nat.mul_comm]
        _ ≤ count * entrySize := Nat.mul_le_mul_right _ hi
    rw [hcount, fill_of_not_mem (by omega), update_of_ne (by omega), Nat.add_assoc,
      move_of_mem hin, Nat.mul_add, Nat.add_assoc, Nat.add_assoc, Nat.add_assoc]
  rw [Frontier.toList_eq, hheader]
  apply ext_getElem?
  intro i
  rw [getElem?_firstEntries, chunk, List.getElem?_take, List.getElem?_drop, toList_eq_firstEntries,
    getElem?_firstEntries, Nat.mul_comm uint8Max]
  by_cases hi : i < count
  · rw [if_pos hi, if_pos (by omega), if_pos (by omega)]
    exact congrArg some (hentry i hi)
  rw [if_neg hi]
  by_cases hmax : i < uint8Max
  · rw [if_pos hmax, if_neg (by omega)]
  · rw [if_neg hmax]

lemma toList_frontierAt_congr (h : ∀ x, offset ≤ x → bytes' x = bytes x) :
    (frontierAt bytes' offset).toList = (frontierAt bytes offset).toList := by
  have hcount : (frontierAt bytes' offset).count = (frontierAt bytes offset).count :=
    congrArg UInt8.toNat (h offset le_rfl)
  rw [Frontier.toList_eq, Frontier.toList_eq, hcount]
  apply firstEntries_congr
  intro i hi
  apply entryAt_congr
  intro k hk
  exact h _ (by omega)

/-- The packing loop.  It reads entries of chunks before `i` only, and writes below the header of
chunk `i`. -/
theorem pack_spec (base i : ℕ) (bytes : ℕ → UInt8) (h : ∀ k < i, k * uint8Max < j.entryCount)
    (hstored : j.Stored base bytes (i * uint8Max)) :
    (∀ k < i, (frontierAt (j.pack base i bytes) (frontierOffset base k)).toList =
      chunk j.toList k) ∧
    ∀ x, x < base ∨ base + entrySize * min j.entryCount (i * uint8Max) + i * frontierSize ≤ x →
      j.pack base i bytes x = bytes x := by
  induction i generalizing bytes with
  | zero => exact ⟨fun k hk => absurd hk (Nat.not_lt_zero k), fun x _ => rfl⟩
  | succ i ih =>
    have hi := h i (Nat.lt_succ_self i)
    rw [pack]
    -- the entries of the earlier chunks lie below this chunk's header
    have hstored' : j.Stored base (j.packChunk base bytes i) (i * uint8Max) := by
      intro m hm hcount
      rw [← hstored m (by rw [Nat.succ_mul]; omega) hcount]
      apply entryAt_congr
      intro k hk
      apply packChunk_frame
      simp only [frontierOffset, entrySize, uint8Max] at hm hk ⊢
      omega
    obtain ⟨hchunks, hframe⟩ := ih _ (fun k hk => h k (Nat.lt_succ_of_lt hk)) hstored'
    refine ⟨fun k hk => ?_, fun x hx => ?_⟩
    · rcases Nat.lt_succ_iff_lt_or_eq.mp hk with hk | rfl
      · exact hchunks k hk
      rw [← toList_packChunk hi hstored]
      apply toList_frontierAt_congr
      intro x hx
      apply hframe
      simp only [frontierOffset, entrySize, uint8Max, frontierSize] at hi hx ⊢
      omega
    · have hend : base + entrySize * min j.entryCount (i * uint8Max) + i * frontierSize ≤
          base + entrySize * min j.entryCount ((i + 1) * uint8Max) + (i + 1) * frontierSize := by
        have hchunk := Nat.mul_le_mul_right uint8Max (Nat.le_succ i)
        have hmin := Nat.mul_le_mul_left entrySize (min_le_min_left j.entryCount hchunk)
        exact Nat.add_le_add (Nat.add_le_add_left hmin base)
          (Nat.mul_le_mul_right _ (Nat.le_succ i))
      rw [hframe x (hx.imp_right hend.trans)]
      apply packChunk_frame
      simp only [frontierOffset, entrySize, uint8Max, frontierSize] at hi hx ⊢
      omega

/-! ### Storage -/

lemma checkedSize_bind {α : Type} {size : ℕ} {message : String} {f : ℕ → Except Status α}
    {result : α}
    (h : (checkedSize size message >>= f) = .ok result) : f size = .ok result := by
  unfold checkedSize at h
  split_ifs at h
  · exact h
  · cases h

/-- A field ends behind its elements. -/
lemma structLayoutField_spec {total : ℕ} {field : StructField} {result : ℕ × ℕ}
    (h : structLayoutField total field = .ok result) :
    total ≤ result.1 ∧ result.2 = result.1 + field.count.1 * field.count.2 * field.elementSize := by
  unfold structLayoutField at h
  by_cases ha : field.alignment > 0
  · have hdiv := Nat.div_add_mod (total + (field.alignment - 1)) field.alignment
    have hmod := Nat.mod_lt (total + (field.alignment - 1)) ha
    rw [Nat.mul_comm] at hdiv
    rw [if_pos ha] at h
    have h := checkedSize_bind h
    rw [pure_bind] at h
    have h := checkedSize_bind (checkedSize_bind (checkedSize_bind h))
    rw [← Except.ok.inj h]
    exact ⟨by dsimp only; omega, rfl⟩
  · rw [if_neg ha, pure_bind] at h
    have h := checkedSize_bind (checkedSize_bind (checkedSize_bind h))
    rw [← Except.ok.inj h]
    exact ⟨le_rfl, rfl⟩

/-- The entries and the headers of all chunks fit behind the entries' offset. -/
lemma joinAllocate_spec {joinSize waitSize capacity : ℕ} {layout : JoinLayout}
    (h : joinAllocate joinSize waitSize capacity = .ok layout) (hpos : 0 < capacity)
    (hcapacity : capacity < 2 ^ 32) :
    layout.entriesOffset + entrySize * capacity + ((capacity - 1) / uint8Max + 1) * frontierSize ≤
      layout.totalSize := by
  have hmod : (capacity + (2 ^ 32 - 1)) % 2 ^ 32 = capacity - 1 := by omega
  unfold joinAllocate at h
  simp only [hmod] at h
  cases hwaits : structLayoutField joinSize ⟨((capacity - 1) / uint8Max + 1, 1), waitSize, 0⟩ with
  | error => rw [hwaits] at h; cases h
  | ok waits =>
    rw [hwaits] at h
    cases hentries : structLayoutField waits.2 ⟨(capacity, 1), entrySize, 0⟩ with
    | error => simp only [bind, Except.bind, hentries] at h; cases h
    | ok =>
      simp only [bind, Except.bind, hentries] at h
      split at h
      · cases h
      next frontiers hfrontiers =>
        have hsize := (structLayoutField_spec hentries).2
        obtain ⟨hle, htotal⟩ := structLayoutField_spec hfrontiers
        rw [← Except.ok.inj h]
        simp only [Nat.mul_one] at hsize htotal ⊢
        rw [Nat.mul_comm entrySize, ← hsize, htotal]
        exact Nat.add_le_add_right hle _

/-! ### The result -/

lemma begin_spec (axis lastEpoch capacity : ℕ) (entries : ℕ → FrontierEntry) :
    IsClock (begin axis lastEpoch capacity entries).toList ∧
      axes (begin axis lastEpoch capacity entries).toList ⊆ {axis} ∧
      (begin axis lastEpoch capacity entries).entryCapacity = capacity ∧
      (begin axis lastEpoch capacity entries).point = ⟨axis, (lastEpoch + 1) % 2 ^ 64⟩ ∧
      ∀ a, epochAt (begin axis lastEpoch capacity entries).toList a =
        if a = axis then (lastEpoch + 1) % 2 ^ 64 - 1 else 0 := by
  unfold begin
  generalize (lastEpoch + 1) % 2 ^ 64 = epoch
  by_cases hepoch : epoch > 1
  · rw [if_pos hepoch]
    have hlist : (List.range 1).map (update entries 0 ⟨axis, epoch - 1⟩) =
        [⟨axis, epoch - 1⟩] := by simp
    simp only [toList, hlist]
    refine ⟨⟨pairwise_singleton _ _, ?_⟩, by simp, trivial, trivial, fun a => ?_⟩
    · intro e he
      rw [mem_singleton.mp he]
      show epoch - 1 ≠ 0
      omega
    · simp [epochAt_cons, eq_comm]
  · rw [if_neg hepoch]
    have hzero : epoch - 1 = 0 := by omega
    simp [toList, IsClock.nil, hzero]

lemma chunk_isClock {l : List FrontierEntry} (h : IsClock l) (ordinal : ℕ) :
    IsClock (chunk l ordinal) := by
  have hsub : (chunk l ordinal).Sublist l := (take_sublist _ _).trans (drop_sublist _ _)
  exact ⟨h.1.sublist hsub, fun e he => h.2 e (hsub.subset he)⟩

/-- A capture denotes what was merged, and its packed frontiers are its entries in order.  The
packing writes only behind the offset of the entries. -/
theorem capture_publish_exact {axis lastEpoch capacity slotCount : ℕ} {registered : Finset ℕ}
    (hslots : calculateSlotCount capacity = .ok slotCount)
    (hregistered : registered.card ≤ capacity)
    (haxis : axis ∈ registered) (storage : ℕ → FrontierEntry) (merged : List (Option Frontier))
    (hmerged : ∀ f, some f ∈ merged → f.Valid ∧ axes f.toList ⊆ registered ∧
      f.epochAt axis ≤ (lastEpoch + 1) % 2 ^ 64) :
    let j := capture axis lastEpoch capacity storage merged
    j.toList.Pairwise (·.axis < ·.axis) ∧
    (∀ a, epochAt j.toList a =
      if a = axis then (lastEpoch + 1) % 2 ^ 64 - 1 else requiredEpoch merged a) ∧
    j.entryCount ≤ j.entryCapacity ∧
    ∀ (joinSize waitSize : ℕ) (layout : JoinLayout),
      joinAllocate joinSize waitSize capacity = .ok layout →
      ∀ bytes : ℕ → UInt8,
        (∀ i < j.entryCount, entryAt bytes (layout.entriesOffset + entrySize * i) = j.entries i) →
        let published := j.frontiers layout (j.publish layout bytes)
        published.length = (j.entryCount + 254) / 255 ∧
        (∀ f ∈ published, f.Valid ∧ f.count ≤ 255) ∧
        published.flatMap Frontier.toList = j.toList ∧
        ∀ x, x < layout.entriesOffset ∨ layout.totalSize ≤ x → j.publish layout bytes x = bytes x :=
            by
  intro j
  obtain ⟨hclock₀, haxes₀, hcapacity₀, hpoint₀, hepoch₀⟩ :=
    begin_spec axis lastEpoch capacity storage
  obtain ⟨hclock, haxes, hcapacity, hepoch⟩ := foldl_merge_spec hclock₀
    (haxes₀.trans (Finset.singleton_subset_iff.mpr haxis)) merged
    fun f hf => ⟨(hmerged f hf).1, (hmerged f hf).2.1⟩
  change IsClock j.toList at hclock
  rw [hcapacity₀] at hcapacity
  have hcount : j.entryCount ≤ capacity := by
    rw [← length_toList, ← hclock.card_axes]
    exact (Finset.card_le_card haxes).trans hregistered
  have hpos : 0 < capacity := (Finset.card_pos.mpr ⟨axis, haxis⟩).trans_le hregistered
  have hlt : capacity < 2 ^ 30 := by
    unfold calculateSlotCount at hslots
    rw [if_neg hpos.ne'] at hslots
    split_ifs at hslots with hlarge
    simp only [Nat.shiftRight_eq_div_pow] at hlarge
    omega
  refine ⟨hclock.1, fun a => ?_, hcapacity ▸ hcount, ?_⟩
  · rw [show epochAt j.toList a = _ from hepoch a, hpoint₀, hepoch₀]
    by_cases ha : a = axis
    · simp [ha]
    · simp [ha]
  intro joinSize waitSize layout hlayout bytes hstored published
  have hsize := joinAllocate_spec hlayout hpos (by omega)
  have hwait : j.waitCount = (j.entryCount + 254) / 255 := by
    unfold waitCount uint8Max
    rw [Nat.mod_eq_of_lt (by omega)]
    omega
  obtain ⟨hchunks, hframe⟩ := pack_spec layout.entriesOffset j.waitCount bytes
    (fun k hk => by rw [hwait] at hk; simp only [uint8Max]; omega) fun i _ hi => hstored i hi
  refine ⟨by simp [published, frontiers, hwait], fun f hf => ?_, ?_, fun x hx => ?_⟩
  · obtain ⟨k, hk, rfl⟩ := mem_map.mp hf
    refine ⟨?_, Nat.le_of_lt_succ (UInt8.toNat_lt _)⟩
    unfold Frontier.Valid publish
    rw [hchunks k (mem_range.mp hk)]
    exact chunk_isClock hclock k
  · have hlists : published.flatMap Frontier.toList = (List.range j.waitCount).flatMap
      (chunk j.toList) := by
      unfold published frontiers publish
      rw [flatMap_map]
      apply flatMap_congr
      intro k hk
      exact hchunks k (mem_range.mp hk)
    rw [hlists, flatMap_chunk, take_of_length_le]
    rw [length_toList, hwait, uint8Max]
    omega
  · apply hframe
    rw [hwait]
    simp only [entrySize, uint8Max, frontierSize] at hsize ⊢
    omega

/-- Epoch 1 of 255 axes. -/
def manyPoints : Frontier := ⟨255, fun i => ⟨i + 1, 1⟩⟩

/-- The points of `manyPoints` behind one of axis 0, stored from byte 228 on. -/
def manyBytes (x : ℕ) : UInt8 :=
  if (x - 228) % 16 = 0 then .ofNat ((x - 228) / 16) else if (x - 228) % 16 = 8 then 1 else 0

/-- The preceding point of the timeline and a frontier of 255 entries are packed in two chunks. -/
theorem capture_publish_exact_two :
    let j := capture 0 1 256 (fun _ => ⟨0, 0⟩) [some manyPoints]
    let published := j.frontiers ⟨100, 228, 4344⟩ (j.publish ⟨100, 228, 4344⟩ manyBytes)
    published.length = 2 ∧ published.flatMap Frontier.toList = j.toList := by
  have hlist : manyPoints.toList = (List.range 255).map fun i => ⟨i + 1, 1⟩ := rfl
  have hmerged : ∀ f, some f ∈ [some manyPoints] → f.Valid ∧
      axes f.toList ⊆ Finset.range 256 ∧ f.epochAt 0 ≤ (1 + 1) % 2 ^ 64 := by
    intro f hf
    obtain rfl := Option.some.inj (mem_singleton.mp hf)
    unfold Frontier.Valid Frontier.epochAt
    rw [hlist]
    refine ⟨⟨?_, ?_⟩, ?_, by decide +kernel⟩
    · exact pairwise_map.mpr (pairwise_lt_range.imp fun h => Nat.succ_lt_succ h)
    · simp
    · intro a ha
      obtain ⟨e, he, rfl⟩ := mem_axes.mp ha
      obtain ⟨i, hi, rfl⟩ := mem_map.mp he
      exact Finset.mem_range.mpr (Nat.succ_lt_succ (mem_range.mp hi))
  have hlayout : joinAllocate 100 64 256 = .ok ⟨100, 228, 4344⟩ := rfl
  have hslots : calculateSlotCount 256 = .ok 512 := rfl
  have h := capture_publish_exact hslots (Finset.card_range 256).le
    (Finset.mem_range.mpr (by decide)) (fun _ => ⟨0, 0⟩) _ hmerged
  have hpoints := (merge_spec (begin 0 1 256 fun _ => ⟨0, 0⟩) (hmerged _ mem_cons_self).1).1.trans
    (by decide +kernel : _ = (List.range 256).map fun i => entryAt manyBytes (228 + entrySize * i))
  change (capture 0 1 256 (fun _ => ⟨0, 0⟩) [some manyPoints]).toList = _ at hpoints
  dsimp only at h ⊢
  generalize capture 0 1 256 (fun _ => ⟨0, 0⟩) [some manyPoints] = j at h hpoints ⊢
  have hcount : j.entryCount = 256 := by
    rw [← length_toList, hpoints, length_map, length_range]
  unfold toList at hpoints
  rw [hcount] at h hpoints
  obtain ⟨-, -, -, hpublish⟩ := h
  obtain ⟨hlength, -, hflat, -⟩ := hpublish 100 64 _ hlayout manyBytes fun i hi =>
    (map_inj_left.mp hpoints i (mem_range.mpr hi)).symm
  exact ⟨hlength, hflat⟩

end Join

end Hrx.Tracker
