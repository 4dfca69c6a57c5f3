import Hrx.Lib.AvlTree
import Mathlib.Algebra.Group.Nat.Defs

/-!
# The pending-epoch index of an axis

Waiters of one axis are indexed by the epoch they wait for.  Waiters of equal epoch share one tree
node: its representative is in the tree, the others are its peers.  Beside the tree the axis caches
its earliest waiter and publishes that waiter's epoch for the lock-free side of `advance`.
-/

namespace Hrx.Tracker

open AvlTree

/-- `UINT64_MAX`: the published epoch of an empty index. -/
def epochMax : ℕ := 2 ^ 64 - 1

/-- The index of one axis: `waiters_root`, `waiters_minimum` with the epoch cached in it, and
`next_wait_epoch`.  A node holds a representative and its peers. -/
structure AxisIndex (α : Type) where
  root : Tree ℕ (α × List α)
  minimum : Option (ℕ × α)
  nextWaitEpoch : ℕ

namespace AxisIndex

variable {α : Type}

def empty : AxisIndex α := ⟨.leaf, none, epochMax⟩

def publishedEpoch (minimum : Option (ℕ × α)) : ℕ :=
  match minimum with
  | none => epochMax
  | some (epoch, _) => epoch

/-- Indexes a waiter: a peer if its epoch has a node, a new node otherwise
(`iree_async_frontier_waiter_index_insert`). -/
def insert (ix : AxisIndex α) (epoch : ℕ) (waiter : α) : AxisIndex α :=
  let root := match ix.root.find? epoch with
    | some _ => ix.root.update epoch fun node => (node.1, waiter :: node.2)
    | none => ix.root.insertNew epoch (waiter, [])
  let minimum := match ix.minimum with
    | none => some (epoch, waiter)
    | some (minimumEpoch, minimum) =>
      if epoch < minimumEpoch then some (epoch, waiter) else some (minimumEpoch, minimum)
  ⟨root, minimum, publishedEpoch minimum⟩

/-- Removes a whole node; the successor takes over as the minimum if it was the earliest. -/
def eraseNode [DecidableEq α] (ix : AxisIndex α) (epoch : ℕ) (representative : α) : AxisIndex α :=
  let minimum := if ix.minimum.map Prod.snd = some representative then
      (ix.root.successor? epoch).map fun node => (node.1, node.2.1)
    else ix.minimum
  ⟨ix.root.erase epoch, minimum, publishedEpoch minimum⟩

/-- Removes a waiter: a peer leaves its list, a representative with peers promotes the first of
them, and only the last waiter of an epoch takes its node along
(`iree_async_frontier_waiter_index_erase`). -/
def erase [DecidableEq α] (ix : AxisIndex α) (epoch : ℕ) (waiter : α) : AxisIndex α :=
  match ix.root.find? epoch with
  | none => ix
  | some (representative, peers) =>
    if representative ≠ waiter then
      { ix with root := ix.root.update epoch fun _ => (representative, peers.erase waiter) }
    else
      match peers with
      | peer :: peers =>
        { ix with
          root := ix.root.update epoch fun _ => (peer, peers)
          minimum := if ix.minimum.map Prod.snd = some waiter then some (epoch, peer)
            else ix.minimum }
      | [] => ix.eraseNode epoch waiter

/-- Takes the earliest node out with its peers, as `advance` does for a ready epoch. -/
def takeNode [DecidableEq α] (ix : AxisIndex α) (epoch : ℕ) (representative : α) :
    List α × AxisIndex α :=
  let peers := match ix.root.find? epoch with
    | some node => node.2
    | none => []
  (representative :: peers, ix.eraseNode epoch representative)

end AxisIndex

end Hrx.Tracker
