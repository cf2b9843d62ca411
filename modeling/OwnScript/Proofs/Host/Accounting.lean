import OwnScript.Proofs.Host.Endurance

/-!
The account of storage is exact, over any sequence of requests to a heap and in every machine that
serves a host.
-/

namespace OwnScript

open Stateful

/-- Every object is accounted for at the size that it has. -/
def Heap.AtSize (heap : Heap) : Prop :=
  ∀ (ref : Ref) (cell : Cell), heap.cells[ref]? = some cell → cell.trackedSize = cell.object.memorySize.toUInt64

namespace Exec

open Machine

/-- That a machine is orderly lasts without any supposition. -/
theorem enduring_orderly (config : Config) :
    Enduring config (fun _ => True) (fun _ => True) (fun _ => True) where
  narrower _ _ := trivial
  spaced _ _ := trivial
  fresh := trivial
  apart _ _ := trivial
  emptied _ := trivial
  started _ _ _ _ := trivial
  collected _ _ := trivial
  changed _ _ _ _ := trivial

theorem furnished_anything (m : Machine) : Furnished (fun _ => True) (fun _ => True) m :=
  ⟨trivial, trivial, fun _ _ => trivial⟩

/-- A host that may do anything. -/
def doesAnything (_ : Machine) (_ : HostRequest) : Prop :=
  True

theorem Session.provided {config : Config} {m : Machine} (hsession : Session doesAnything config m) :
    Session (Provided (fun _ => True) (fun _ => True)) config m := by
  induction hsession with
  | fresh => exact .fresh
  | next fuel _ _ ih => exact .next fuel ih ⟨fun after _ => furnished_anything after, fun _ => trivial⟩

theorem Session.orderly {config : Config} {m : Machine} (hsession : Session doesAnything config m) :
    m.Orderly :=
  ((enduring_orderly config).good_session hsession.provided).orderly

theorem Passes.orderly {request : HostRequest} {m after : Machine} (hpasses : Passes request m after)
    (horderly : m.Orderly) : after.Orderly :=
  ((enduring_orderly {}).good_passes hpasses ⟨horderly, trivial⟩ fun after _ => furnished_anything after).orderly

/-- The account of a heap is exact over every sequence of requests whose totals fit into a word: the
bytes in use are those kept for the objects, the objects are counted, what was entered is what was
given up and what is in use, the largest count is one that was reached, and what is parked adds up and
stays below its limit; an allocation that fails only moves blocks. In a machine that serves a host each
object is accounted for at its size, between requests and at every instruction boundary. -/
theorem account_exact :
    (∀ (config : HeapConfig) (requests : List HeapRequest), Heap.TotalsFit config requests →
      Heap.ExactAfter config requests) ∧
    ∀ (config : Config) (m : Machine), Session doesAnything config m →
      m.heap.AtSize ∧ ∀ request after, Passes request m after → after.heap.AtSize := by
  refine ⟨fun config requests hfits => Heap.exactAfter_of_totalsFit hfits, fun config m hsession => ?_⟩
  have horderly := hsession.orderly
  exact ⟨horderly.heap.accounted.tracked, fun request after hpasses =>
    (hpasses.orderly horderly).heap.accounted.tracked⟩

/-- Requests to a heap of 220 bytes: a record grows, a string fits and another does not; what nothing
leads to is collected, a string that is too long takes its block and gives it back, and the last one
gets it. -/
def someRequests : List HeapRequest :=
  [.allocate (.record {}), .recordSize 0 130, .allocate (.string "abc"), .allocate (.string "no room"),
    .collect [.ofRef 0], .allocate (.string "thirty characters are too many"), .allocate (.string "fits")]

/-- The requests to the small heap, and a run of a script on a machine. -/
theorem account_exact_someRequests :
    Heap.TotalsFit { maxHeapBytes := 220 } someRequests ∧
      Heap.ExactAfter { maxHeapBytes := 220 } someRequests ∧
      (Heap.serving { maxHeapBytes := 220 } someRequests).statistics =
        { totalAllocated := 304, totalFreed := 87, bytesLive := 217, objects := 2, peakObjects := 2,
          collections := 1, reusedBlocks := 2 } ∧
      (stateAfter (serve 20 (.execute peekUnit) (.ofConfig {}))).heap.AtSize := by
  have hparked : ∀ earlier ∈ someRequests.inits,
      (Heap.serving { maxHeapBytes := 220 } earlier).parkedBytes < UInt64.size := by decide +kernel
  have hfits : Heap.TotalsFit { maxHeapBytes := 220 } someRequests :=
    ⟨by decide +kernel, fun earlier hearlier => hparked earlier ((List.mem_inits _ _).mpr hearlier)⟩
  have hfresh : Session doesAnything {} (.ofConfig {}) := .fresh
  exact ⟨hfits, account_exact.1 _ _ hfits, by decide +kernel,
    (account_exact.2 {} _ (.next 20 hfresh trivial)).1⟩

end Exec

end OwnScript
