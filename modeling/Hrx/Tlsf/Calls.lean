import Hrx.Tlsf.History

/-!
# The whole interface of the allocator

The operations of `tlsf.c` that a pool uses beside allocating and freeing: the enumeration of free
blocks for its own selection, and the queries and rewrites of a completely free range, which address
block 0 without a search.  `Call` is one call of the whole interface, under the conditions that
`tlsf.h` puts on its callers.
-/

namespace Hrx.Tlsf

namespace Allocator

/-! ### Enumerating free blocks -/

/-- A free block offered to a policy (`iree_hal_memory_tlsf_candidate_t`). -/
structure Candidate where
  blockIndex : ℕ
  blockFlags : BlockFlags
  deathFrontier : Option Frontier

variable (s : Allocator)

def candidateOf (blockIndex : ℕ) : Candidate :=
  ⟨blockIndex, (s.blockAt blockIndex).flags, s.blockDeathFrontier blockIndex⟩

/-- The end of the enumeration. -/
def Candidate.none : Candidate := ⟨indexNone, ⟨false, false, false⟩, Option.none⟩

/-- The next nonempty bin behind a bin, by bitmap scans. -/
def nextBin (fl sl : ℕ) : Option (ℕ × ℕ) :=
  -- Only bins after the current one, without shifting by the word size.
  let slMap := s.slBitmaps fl &&& ~~~(BitVec.allOnes 32 >>> (31 - sl))
  if slMap = 0 then
    let flMap := s.flBitmap &&& ~~~(BitVec.allOnes 64 >>> (63 - fl))
    if flMap = 0 then Option.none
    else
      let fl := flMap.ctz.toNat
      some (fl, (s.slBitmaps fl).ctz.toNat)
  else some (fl, slMap.ctz.toNat)

/-- The two nested loops of `query_free_block`, from a block of a bin on; `none` when the fuel does
not reach. -/
def queryLoop (s : Allocator) (minimumLength : ℕ) : ℕ → ℕ → ℕ → ℕ → Option Candidate
  | 0, _, _, _ => none
  | fuel + 1, fl, sl, blockIndex =>
    if blockIndex ≠ indexNone then
      if minimumLength ≤ (s.blockAt blockIndex).length then some (s.candidateOf blockIndex)
      else s.queryLoop minimumLength fuel fl sl (s.blockAt blockIndex).nextFree
    else
      match s.nextBin fl sl with
      | none => some Candidate.none
      | some (fl, sl) => s.queryLoop minimumLength fuel fl sl (s.freeLists fl sl)

/-- The next free block of at least `minimumLength` bytes after a candidate, or the first one
(`iree_hal_memory_tlsf_query_free_block`). -/
def queryFreeBlock (fuel minimumLength afterBlock : ℕ) : Option Candidate :=
  if afterBlock = indexNone then
    let (fl, sl) := mappingInsert minimumLength
    s.queryLoop minimumLength fuel fl sl (s.freeLists fl sl)
  else
    let after := s.blockAt afterBlock
    let (fl, sl) := mappingInsert after.length
    s.queryLoop minimumLength fuel fl sl after.nextFree

/-- Iterating the query, each time with the candidate before it, until it is exhausted; `none` when
the given number of queries does not reach the end. -/
def candidates (s : Allocator) (fuel minimumLength : ℕ) : ℕ → ℕ → Option (List Candidate)
  | 0, _ => none
  | queries + 1, afterBlock => do
    let candidate ← s.queryFreeBlock fuel minimumLength afterBlock
    if candidate.blockIndex = indexNone then return []
    else
      let rest ← s.candidates fuel minimumLength queries candidate.blockIndex
      return candidate :: rest

/-- The block is one that the enumeration offers for a length. -/
def Selects (minimumLength blockIndex : ℕ) : Prop :=
  ∃ fuel queries visited, s.candidates fuel minimumLength queries indexNone = some visited ∧
    ∃ candidate ∈ visited, candidate.blockIndex = blockIndex

/-! ### The completely free range -/

/-- The condition that the operations on the whole range assert. -/
def IsFullFree : Prop := s.allocationCount = 0 ∧ s.freeBlockCount = 1 ∧ s.bytesFree = s.rangeLength

instance (s : Allocator) : Decidable s.IsFullFree := inferInstanceAs (Decidable (_ ∧ _ ∧ _))

/-- The dependency metadata of a completely free range
(`iree_hal_memory_tlsf_query_full_free_block`). -/
def queryFullFreeBlock : Option (Option Frontier × BlockFlags) :=
  if s.allocationCount ≠ 0 ∨ s.freeBlockCount ≠ 1 ∨ s.bytesFree ≠ s.rangeLength then none
  else some (s.blockDeathFrontier 0, (s.blockAt 0).flags)

/-- `iree_hal_memory_tlsf_merge_full_free_frontier`. -/
def mergeFullFreeFrontier (frontier : Option Frontier) : Allocator :=
  match frontier with
  | none => s
  | some frontier => s.mergeFrontiers 0 frontier

/-- Rebinds a completely free range (`iree_hal_memory_tlsf_reset`). -/
def reset (initialFrontier : Option Frontier) : Allocator :=
  let s := s.modifyBlock 0 fun b =>
    { b with
      flags := ⟨true, true, false⟩
      frontier := (initialFrontier.map b.frontier.copyOver).getD b.frontier.clear }
  { s with taintedCoalesceCount := 0 }

end Allocator

/-! ### Calls -/

/-- One call of the interface.  `allocate_block` takes a block that the enumeration has offered for
the aligned request, with a node at hand if it has to be split; `merge_full_free_frontier` and
`reset` are called on a completely free range. -/
inductive Call (accepts : Option Frontier → Prop) : History → History → Prop where
  | step {h h' : History} : Step accepts h h' → Call accepts h h'
  | allocateBlock {h : History} {blockIndex alignedLength : ℕ} :
    h.tlsf.alignment ∣ alignedLength → 0 < alignedLength → alignedLength < 2 ^ 64 →
    h.tlsf.Selects alignedLength blockIndex →
    (h.tlsf.queryGrowth blockIndex alignedLength).firstBlock = 0 →
      Call accepts h
        { h with
          tlsf := (h.tlsf.allocateBlock blockIndex alignedLength).1
          live := insert blockIndex h.live }
  | mergeFullFreeFrontier {h : History} {frontier : Option Frontier} : h.tlsf.IsFullFree →
      Call accepts h
        { h with
          tlsf := h.tlsf.mergeFullFreeFrontier frontier
          death := fun byte axis => max (h.death byte axis) (requiredEpoch frontier axis) }
  | reset {h : History} {initialFrontier : Option Frontier} : h.tlsf.IsFullFree →
      Call accepts h
        { h with
          tlsf := h.tlsf.reset initialFrontier
          death := fun _ => requiredEpoch initialFrontier }

/-- The histories that finitely many calls of the whole interface reach after an initialization. -/
def Called (accepts : Option Frontier → Prop) (options : Options) (s : Allocator) :
    History → Prop :=
  Transition.Reachable (· = History.start options s) (Call accepts)

end Hrx.Tlsf
