import Hrx.Semaphore.Tainting

/-!
# What an untainted value promises

The watermark is raised to the value of every call whose frontier fits, whether or not an earlier
frontier was lost to an overflow.  So an untainted value has its whole causal history exactly in
those sequences of calls in which nothing fits any more once a frontier has been lost.

The proof follows the calls one by one.  A lost frontier stays lost: it has an axis that never found
room, and the accumulated frontier only grows within the same capacity.
-/

namespace Hrx.Semaphore

open List

open Frontier (DominatedBy)

variable {s : Semaphore} {initialValue value : ℕ} {capacity : UInt8} {calls : List Call}
  {frontier : Option Frontier}

/-- A frontier that is dominated adds no axis. -/
lemma axes_subset_of_dominatedBy {f g : Frontier} (hf : f.Valid) (hle : f.DominatedBy g) :
    f.axes ⊆ g.axes := by
  intro axis haxis
  obtain ⟨e, he, rfl⟩ := VectorClock.mem_axes.mp haxis
  by_contra hnot
  have hpos : e.epoch ≠ 0 := hf.2 e he
  have hfe : f.epochAt e.axis = e.epoch := VectorClock.IsClock.epochAt_of_mem hf he
  have hge : g.epochAt e.axis = 0 := VectorClock.epochAt_of_not_mem hnot
  have hcover := hle e.axis
  omega

/-- What every call keeps: the accumulated frontier is valid and within the capacity, the semaphore
has not failed and the watermark is not ahead of the timeline. -/
structure Sound (s : Semaphore) : Prop where
  valid : s.frontier.Valid
  fits : s.frontier.entryCount ≤ s.frontierCapacity
  healthy : s.failureStatus.isOk = true
  watermark : s.lastUntaintedValue ≤ s.timelineValue

lemma Sound.create (initialValue : ℕ) (capacity : UInt8) : (create initialValue capacity).Sound :=
  ⟨VectorClock.IsClock.nil, UInt8.le_iff_toNat_le.mpr (Nat.zero_le _), rfl, le_rfl⟩

section

variable (hs : s.Sound)
include hs

lemma Sound.card_axes_le : s.frontier.axes.card ≤ s.frontierCapacity.toNat := by
  have hcard : s.frontier.axes.card = s.frontier.toList.length :=
    VectorClock.IsClock.card_axes hs.valid
  rw [hcard, Frontier.toList, length_map, length_range]
  exact UInt8.le_iff_toNat_le.mp hs.fits

/-- A frontier that is dominated never overflows. -/
lemma Sound.not_overflows_of_dominatedBy {f : Frontier} (hf : f.Valid)
    (hle : f.DominatedBy s.frontier) :
    (s.frontier.axes ∪ f.axes).card ≤ s.frontierCapacity.toNat := by
  rw [Finset.union_eq_left.mpr (axes_subset_of_dominatedBy hf hle)]
  exact hs.card_axes_le

/-! ### One call -/

/-- A frontier that fits becomes part of the accumulated one. -/
lemma Sound.mergeFrontier_of_fits (hv : ∀ f ∈ frontier, f.Valid) (hfits : ¬s.Overflows frontier) :
    (s.mergeFrontier frontier).2 = true ∧ (s.mergeFrontier frontier).1.frontier.Valid ∧
      (s.mergeFrontier frontier).1.frontier.entryCount ≤ s.frontierCapacity ∧
      s.frontier.DominatedBy (s.mergeFrontier frontier).1.frontier ∧
      ∀ f ∈ frontier, f.DominatedBy (s.mergeFrontier frontier).1.frontier := by
  cases frontier with
  | none => exact ⟨rfl, hs.valid, hs.fits, fun _ => le_rfl, by simp⟩
  | some f =>
    have hf : f.Valid := hv f rfl
    unfold mergeFrontier
    dsimp only
    split_ifs with hcount
    · have hmerged : (s.frontier.mergeImpl s.frontierCapacity f).merged = true := by
        rw [Frontier.mergeImpl_merged_iff hs.valid hf hs.fits]
        exact not_lt.mp fun hlt => hfits ⟨f, rfl, hlt⟩
      have hepoch := Frontier.epochAt_mergeImpl hs.valid hf hs.fits hmerged
      refine ⟨hmerged, Frontier.valid_mergeImpl hs.valid hf hs.fits hmerged,
        Frontier.entryCount_mergeImpl_le hs.valid hf hs.fits, fun axis => ?_, fun g hg axis => ?_⟩
      · exact (le_max_left _ _).trans (hepoch axis).ge
      · cases hg
        exact (le_max_right _ _).trans (hepoch axis).ge
    · -- an empty frontier has nothing to cover
      have hzero : f.entryCount = 0 := by
        rw [UInt8.lt_iff_toNat_lt] at hcount
        exact UInt8.toNat_inj.mp (Nat.eq_zero_of_not_pos hcount)
      refine ⟨rfl, hs.valid, hs.fits, fun _ => le_rfl, fun g hg axis => ?_⟩
      cases hg
      rw [Frontier.epochAt, Frontier.toList_eq_nil_of_entryCount hzero]
      exact Nat.zero_le _

/-- A frontier that does not fit is dropped. -/
lemma Sound.mergeFrontier_of_overflows (hv : ∀ f ∈ frontier, f.Valid)
    (hover : s.Overflows frontier) : s.mergeFrontier frontier = (s, false) := by
  obtain ⟨f, hmem, hlt⟩ := hover
  obtain rfl : frontier = some f := hmem
  have hf : f.Valid := hv f rfl
  have hmerged : ¬(s.frontier.mergeImpl s.frontierCapacity f).merged = true := by
    rw [Frontier.mergeImpl_merged_iff hs.valid hf hs.fits]
    exact hlt.not_ge
  have hcount : 0 < f.entryCount := by
    -- without entries there would be no new axis
    by_contra hzero
    rw [UInt8.lt_iff_toNat_lt] at hzero
    have hnil := Frontier.toList_eq_nil_of_entryCount
      (UInt8.toNat_inj.mp (Nat.eq_zero_of_not_pos hzero))
    rw [Frontier.axes, Frontier.axes, hnil, VectorClock.axes_nil, Finset.union_empty] at hlt
    exact absurd hs.card_axes_le hlt.not_ge
  unfold mergeFrontier
  dsimp only
  rw [if_pos hcount]
  unfold Frontier.merge
  dsimp only
  rw [Frontier.mergeImpl_target_of_not_merged hs.valid hf hs.fits (by simpa using hmerged)]
  simp only [Bool.not_eq_true] at hmerged
  rw [hmerged]

/-- Both calls publish when the value is new. -/
lemma Sound.run_eq_publish {c : Call} (hlt : s.timelineValue < c.value) :
    c.run s = (s.publish c.value c.frontier).1 := by
  unfold Call.run signalUntainted publishUntainted
  cases c.kind with
  | signalUntainted =>
    rw [if_neg (by omega)]
  | publishUntainted =>
    dsimp only
    rw [if_neg (by rw [hs.healthy]; simp), if_neg (by omega)]

/-- Advancing the timeline alone keeps the rest in order. -/
lemma Sound.advance (hlt : s.timelineValue < value) : { s with timelineValue := value }.Sound :=
  ⟨hs.valid, hs.fits, hs.healthy, hs.watermark.trans hlt.le⟩

omit hs in
lemma mergeFrontier_timelineValue (s : Semaphore) (frontier : Option Frontier) :
    (s.mergeFrontier frontier).1.timelineValue = s.timelineValue ∧
      (s.mergeFrontier frontier).1.lastUntaintedValue = s.lastUntaintedValue ∧
      (s.mergeFrontier frontier).1.failureStatus = s.failureStatus ∧
      (s.mergeFrontier frontier).1.frontierCapacity = s.frontierCapacity := by
  unfold mergeFrontier
  split
  · exact ⟨rfl, rfl, rfl, rfl⟩
  · split_ifs <;> exact ⟨rfl, rfl, rfl, rfl⟩

/-- A call whose frontier fits raises the watermark to its value. -/
lemma Sound.run_of_fits {c : Call} (hlt : s.timelineValue < c.value)
    (hv : ∀ f ∈ c.frontier, f.Valid) (hfits : ¬s.Overflows c.frontier) :
    (c.run s).Sound ∧ (c.run s).frontierCapacity = s.frontierCapacity ∧
      (c.run s).timelineValue = c.value ∧ (c.run s).lastUntaintedValue = c.value ∧
      s.frontier.DominatedBy (c.run s).frontier ∧
      ∀ f ∈ c.frontier, f.DominatedBy (c.run s).frontier := by
  obtain ⟨hmerged, hvalid, hcount, hgrows, hcovers⟩ :=
    (hs.advance hlt).mergeFrontier_of_fits hv hfits
  obtain ⟨htimeline, hwatermark, hfailure, hcapacity⟩ :=
    mergeFrontier_timelineValue { s with timelineValue := c.value } c.frontier
  rw [hs.run_eq_publish hlt]
  unfold publish
  generalize mergeFrontier { s with timelineValue := c.value } c.frontier = m at *
  obtain ⟨m, fits⟩ := m
  dsimp only at *
  subst hmerged
  have hnew : ¬c.value ≤ m.lastUntaintedValue := by
    rw [hwatermark]
    have := hs.watermark
    omega
  rw [if_pos rfl, raiseWatermark, if_neg hnew]
  refine ⟨⟨hvalid, ?_, ?_, ?_⟩, hcapacity, htimeline, rfl, hgrows, hcovers⟩
  · rw [hcapacity]
    exact hcount
  · exact hfailure ▸ hs.healthy
  · exact htimeline.ge

/-- A call whose frontier overflows leaves frontier and watermark as they are. -/
lemma Sound.run_of_overflows {c : Call} (hlt : s.timelineValue < c.value)
    (hv : ∀ f ∈ c.frontier, f.Valid) (hover : s.Overflows c.frontier) :
    (c.run s).Sound ∧ (c.run s).frontierCapacity = s.frontierCapacity ∧
      (c.run s).timelineValue = c.value ∧ (c.run s).lastUntaintedValue = s.lastUntaintedValue ∧
      (c.run s).frontier = s.frontier := by
  have hmerge := (hs.advance hlt).mergeFrontier_of_overflows hv hover
  rw [hs.run_eq_publish hlt, publish, hmerge]
  exact ⟨⟨hs.valid, hs.fits, hs.healthy, hs.watermark.trans hlt.le⟩, rfl, rfl, rfl, rfl⟩

end

/-! ### Sequences of calls -/

lemma runCalls_concat (calls : List Call) (c : Call) :
    runCalls initialValue capacity (calls ++ [c]) =
      c.run (runCalls initialValue capacity calls) := by
  rw [runCalls, foldl_append]
  rfl

lemma Proper.init {c : Call} (hp : Proper initialValue (calls ++ [c])) :
    Proper initialValue calls := by
  refine ⟨?_, fun d hd => hp.valid d (mem_append_left _ hd)⟩
  have hchain := hp.increasing
  rw [map_append, ← cons_append] at hchain
  exact hchain.left_of_append

/-- What a sequence of calls keeps: the timeline is at the last value, and every frontier that was
passed is covered or still has an axis without room. -/
structure Ledger (initialValue : ℕ) (capacity : UInt8) (calls : List Call) : Prop where
  sound : (runCalls initialValue capacity calls).Sound
  frontierCapacity : (runCalls initialValue capacity calls).frontierCapacity = capacity
  timeline : (runCalls initialValue capacity calls).timelineValue =
    ((initialValue :: calls.map Call.value).getLast (cons_ne_nil _ _))
  value_le : ∀ c ∈ calls, c.value ≤ (runCalls initialValue capacity calls).timelineValue
  accounted : ∀ c ∈ calls, ∀ f ∈ c.frontier,
    f.DominatedBy (runCalls initialValue capacity calls).frontier ∨
      capacity.toNat < ((runCalls initialValue capacity calls).frontier.axes ∪ f.axes).card

/-- The next value of a proper sequence is above the timeline. -/
lemma Ledger.lt_value (hl : Ledger initialValue capacity calls) {c : Call}
    (hp : Proper initialValue (calls ++ [c])) :
    (runCalls initialValue capacity calls).timelineValue < c.value := by
  rw [hl.timeline]
  have hchain := hp.increasing
  rw [map_append, ← cons_append] at hchain
  exact (isChain_append.mp hchain).2.2 _ (List.getLast?_eq_some_getLast _) _ rfl

/-- The ledger of every proper sequence. -/
lemma Proper.ledger (hp : Proper initialValue calls) (capacity : UInt8) :
    Ledger initialValue capacity calls := by
  induction calls using List.reverseRecOn with
  | nil => exact ⟨.create initialValue capacity, rfl, rfl, by simp, by simp⟩
  | append_singleton calls c ih =>
    have hl := ih hp.init
    have hlt := hl.lt_value hp
    have hv := hp.valid c (mem_append_right _ (mem_singleton_self c))
    have hlast : ((initialValue :: (calls ++ [c]).map Call.value).getLast
        (cons_ne_nil _ _)) = c.value := by simp
    have hvalues : ∀ d ∈ calls ++ [c], d.value ≤ c.value := by
      intro d hd
      rcases mem_append.mp hd with hd | hd
      · exact (hl.value_le d hd).trans hlt.le
      · rw [mem_singleton.mp hd]
    have haxes : ∀ {f g : Frontier}, g.Valid → g.DominatedBy f → ∀ h : Frontier,
        (g.axes ∪ h.axes).card ≤ (f.axes ∪ h.axes).card := fun hg hle h =>
      Finset.card_le_card (Finset.union_subset_union_left (axes_subset_of_dominatedBy hg hle))
    have hcap := hl.frontierCapacity
    have haccounted := hl.accounted
    have hsound := hl.sound
    by_cases hover : (runCalls initialValue capacity calls).Overflows c.frontier
    · obtain ⟨hsound', hcap', htimeline, -, hfrontier⟩ := hsound.run_of_overflows hlt hv hover
      rw [← runCalls_concat] at hsound' hcap' htimeline hfrontier
      refine ⟨hsound', hcap'.trans hcap, htimeline.trans hlast.symm, ?_, fun d hd f hf => ?_⟩
      · rw [htimeline]
        exact hvalues
      rw [hfrontier]
      rcases mem_append.mp hd with hd | hd
      · exact haccounted d hd f hf
      rw [mem_singleton.mp hd] at hf
      obtain ⟨g, hg, hlarge⟩ := hover
      obtain rfl : g = f := Option.mem_unique hg hf
      rw [hcap] at hlarge
      exact Or.inr hlarge
    · obtain ⟨hsound', hcap', htimeline, -, hgrows, hcovers⟩ := hsound.run_of_fits hlt hv hover
      rw [← runCalls_concat] at hsound' hcap' htimeline hgrows hcovers
      refine ⟨hsound', hcap'.trans hcap, htimeline.trans hlast.symm, ?_, fun d hd f hf => ?_⟩
      · rw [htimeline]
        exact hvalues
      rcases mem_append.mp hd with hd | hd
      · rcases haccounted d hd f hf with hle | hlarge
        · exact Or.inl fun axis => (hle axis).trans (hgrows axis)
        · exact Or.inr (hlarge.trans_le (haxes hsound.valid hgrows f))
      · rw [mem_singleton.mp hd] at hf
        exact Or.inl (hcovers f hf)

/-- A lost frontier is one that has no room. -/
lemma Ledger.lost_iff (hl : Ledger initialValue capacity calls)
    (hp : Proper initialValue calls) :
    (runCalls initialValue capacity calls).Lost calls ↔ ∃ c ∈ calls, ∃ f ∈ c.frontier,
      capacity.toNat < ((runCalls initialValue capacity calls).frontier.axes ∪ f.axes).card := by
  constructor
  · rintro ⟨c, hc, f, hf, hnot⟩
    exact ⟨c, hc, f, hf, (hl.accounted c hc f hf).resolve_left hnot⟩
  rintro ⟨c, hc, f, hf, hlarge⟩
  refine ⟨c, hc, f, hf, fun hle => ?_⟩
  have hsmall := hl.sound.not_overflows_of_dominatedBy (hp.valid c hc f hf) hle
  rw [hl.frontierCapacity] at hsmall
  omega

/-- What a call that fits does to the losses: none is made good and none is added. -/
lemma Ledger.lost_concat_of_fits (hl : Ledger initialValue capacity calls) {c : Call}
    (hp : Proper initialValue (calls ++ [c]))
    (hfits : ¬(runCalls initialValue capacity calls).Overflows c.frontier) :
    (runCalls initialValue capacity (calls ++ [c])).Lost (calls ++ [c]) ↔
      (runCalls initialValue capacity calls).Lost calls := by
  have hv := hp.valid c (mem_append_right _ (mem_singleton_self c))
  obtain ⟨-, -, -, -, hgrows, hcovers⟩ := hl.sound.run_of_fits (hl.lt_value hp) hv hfits
  rw [← runCalls_concat] at hgrows hcovers
  constructor
  · rintro ⟨d, hd, f, hf, hnot⟩
    rcases mem_append.mp hd with hd | hd
    · exact ⟨d, hd, f, hf, fun hle => hnot fun axis => (hle axis).trans (hgrows axis)⟩
    · rw [mem_singleton.mp hd] at hf
      exact absurd (hcovers f hf) hnot
  · intro hlost
    obtain ⟨d, hd, f, hf, hlarge⟩ := (hl.lost_iff hp.init).mp hlost
    refine ((hp.ledger capacity).lost_iff hp).mpr ⟨d, mem_append_left _ hd, f, hf, ?_⟩
    exact hlarge.trans_le (Finset.card_le_card (Finset.union_subset_union_left
      (axes_subset_of_dominatedBy hl.sound.valid hgrows)))

lemma staysOverflown_concat_iff (calls : List Call) (c : Call) :
    StaysOverflown initialValue capacity (calls ++ [c]) ↔
      StaysOverflown initialValue capacity calls ∧
        ((runCalls initialValue capacity calls).Lost calls →
          (runCalls initialValue capacity calls).Overflows c.frontier) := by
  constructor
  · intro h
    exact ⟨fun earlier d hpre => h earlier d (hpre.trans (prefix_append _ _)), h calls c prefix_rfl⟩
  rintro ⟨h, hlast⟩ earlier d hpre
  rcases prefix_concat_iff.mp hpre with heq | hpre
  · obtain ⟨rfl, hd⟩ := append_inj' heq rfl
    obtain rfl := singleton_inj.mp hd
    exact hlast
  · exact h earlier d hpre

/-- As long as nothing is lost, nothing has to overflow. -/
lemma Proper.staysOverflown_of_not_lost (hp : Proper initialValue calls)
    (hlost : ¬(runCalls initialValue capacity calls).Lost calls) :
    StaysOverflown initialValue capacity calls := by
  induction calls using List.reverseRecOn with
  | nil =>
    intro earlier c hpre
    exact absurd (prefix_nil.mp hpre) (by simp)
  | append_singleton calls c ih =>
    have hl := hp.init.ledger capacity
    have hearlier : ¬(runCalls initialValue capacity calls).Lost calls := by
      intro hc
      refine hlost ?_
      by_cases hover : (runCalls initialValue capacity calls).Overflows c.frontier
      · have hv := hp.valid c (mem_append_right _ (mem_singleton_self c))
        obtain ⟨-, -, -, -, hfrontier⟩ := hl.sound.run_of_overflows (hl.lt_value hp) hv hover
        obtain ⟨d, hd, f, hf, hnot⟩ := hc
        exact ⟨d, mem_append_left _ hd, f, hf, by rwa [runCalls_concat, hfrontier]⟩
      · exact (hl.lost_concat_of_fits hp hover).mpr hc
    exact (staysOverflown_concat_iff calls c).mpr ⟨ih hp.init hearlier,
      fun hc => absurd hc hearlier⟩

/-- Untainted values have their whole causal history exactly in those sequences of calls in which no
frontier fits any more once one was lost. -/
theorem causallyComplete_iff_staysOverflown (initialValue : ℕ) (capacity : UInt8)
    (calls : List Call) (hp : Proper initialValue calls) :
    (runCalls initialValue capacity calls).CausallyComplete calls ↔
      StaysOverflown initialValue capacity calls := by
  induction calls using List.reverseRecOn with
  | nil =>
    refine iff_of_true (fun v _ c hc => absurd hc not_mem_nil) fun earlier c hpre => ?_
    exact absurd (prefix_nil.mp hpre) (by simp)
  | append_singleton calls c ih =>
    have hl := hp.init.ledger capacity
    have hlt := hl.lt_value hp
    have hv := hp.valid c (mem_append_right _ (mem_singleton_self c))
    have hl' := hp.ledger capacity
    rw [staysOverflown_concat_iff]
    by_cases hover : (runCalls initialValue capacity calls).Overflows c.frontier
    · -- the watermark stays below the new value, so the new frontier is not promised
      obtain ⟨-, -, -, hwatermark, hfrontier⟩ := hl.sound.run_of_overflows hlt hv hover
      rw [← runCalls_concat] at hwatermark hfrontier
      rw [← ih hp.init, and_iff_left fun _ => hover]
      unfold CausallyComplete isValueTainted
      rw [hwatermark, hfrontier]
      constructor
      · exact fun h v hv d hd => h v hv d (mem_append_left _ hd)
      intro h v hv d hd hle
      rcases mem_append.mp hd with hd | hd
      · exact h v hv d hd hle
      have hsound := hl.sound.watermark
      rw [mem_singleton.mp hd] at hle
      simp only [decide_eq_false_iff_not] at hv
      omega
    · -- the watermark covers every value, so everything passed is promised
      obtain ⟨-, -, -, hwatermark, -⟩ := hl.sound.run_of_fits hlt hv hover
      rw [← runCalls_concat] at hwatermark
      have hcomplete : (runCalls initialValue capacity (calls ++ [c])).CausallyComplete
          (calls ++ [c]) ↔ ¬(runCalls initialValue capacity (calls ++ [c])).Lost
            (calls ++ [c]) := by
        constructor
        · rintro h ⟨d, hd, f, hf, hnot⟩
          refine hnot (h c.value ?_ d hd ?_ f hf)
          · simp [isValueTainted, hwatermark]
          have hle := hl'.value_le d hd
          have htimeline := hl'.timeline
          simp only [map_append, map_cons, map_nil] at htimeline
          rw [htimeline] at hle
          simpa using hle
        · intro h v _ d hd _ f hf
          by_contra hnot
          exact h ⟨d, hd, f, hf, hnot⟩
      rw [hcomplete, hl.lost_concat_of_fits hp hover]
      constructor
      · exact fun h => ⟨hp.init.staysOverflown_of_not_lost h, fun hc => absurd hc h⟩
      · exact fun h hc => hover (h.2 hc)

/-- With room for one axis the frontier of the second is lost.  Nothing fits after it, so the value
that is left untainted has its whole history. -/
theorem causallyComplete_iff_staysOverflown_two_axes : ∃ calls : List Call, Proper 0 calls ∧
    (runCalls 0 1 calls).Lost calls ∧ (runCalls 0 1 calls).CausallyComplete calls := by
  have hp : Proper 0 ([⟨.signalUntainted, 1, some (.ofList [⟨7, 1⟩])⟩] ++
      [⟨.publishUntainted, 2, some (.ofList [⟨8, 1⟩])⟩]) := by
    refine ⟨by simp, ?_⟩
    simp [Frontier.Valid, Frontier.ofList, Frontier.toList, Frontier.count, VectorClock.IsClock]
  refine ⟨_, hp, ⟨_, mem_append_right _ (mem_singleton_self _), _, rfl, fun hle => ?_⟩,
    (causallyComplete_iff_staysOverflown 0 1 _ hp).mpr ?_⟩
  · exact absurd (hle 8) (by decide +kernel)
  · refine (staysOverflown_concat_iff _ _).mpr ⟨?_, fun _ => ⟨_, rfl, by decide +kernel⟩⟩
    refine (staysOverflown_concat_iff [] _).mpr ⟨fun _ _ h => ?_, fun h => ?_⟩
    · exact absurd (prefix_nil.mp h) (by simp)
    · exact absurd h.choose_spec.1 not_mem_nil

/-- The watermark rises past a lost frontier: with room for one axis, the frontier published with
value 2 overflows and stays tainted until value 3 is published on the first axis. -/
theorem not_causallyComplete_after_overflow :
    ¬(runCalls 0 1 [⟨.signalUntainted, 1, some (.ofList [⟨7, 1⟩])⟩,
        ⟨.signalUntainted, 2, some (.ofList [⟨8, 1⟩])⟩,
        ⟨.signalUntainted, 3, some (.ofList [⟨7, 2⟩])⟩]).CausallyComplete
      [⟨.signalUntainted, 1, some (.ofList [⟨7, 1⟩])⟩,
        ⟨.signalUntainted, 2, some (.ofList [⟨8, 1⟩])⟩,
        ⟨.signalUntainted, 3, some (.ofList [⟨7, 2⟩])⟩] := by
  intro h
  have hle := h 2 (by decide +kernel) ⟨.signalUntainted, 2, some (.ofList [⟨8, 1⟩])⟩ (by simp)
    (by decide) (.ofList [⟨8, 1⟩]) rfl 8
  revert hle
  decide +kernel

end Hrx.Semaphore
