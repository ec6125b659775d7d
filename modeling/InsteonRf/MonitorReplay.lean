import InsteonRf.MonitorLog

/-!
# What a replay logs

Where nothing that reaches outside the process fails, what is logged is a function of the blocks
taken, whatever the order of the steps. A replay loses no block, so the same file always decodes
to the same packets.
-/
namespace InsteonRf
open OrderedDict Recover

namespace MonitorService

section
variable (a : Args)

def publishable (b : Block) : Bool := (publishes a b 0 true).isSome

def unwatchable (pkt : Packet) : Bool :=
  a.watch_all_on.isSome && pkt.isGroupBroadcast && decide (pkt.group = some allDevicesGroup) &&
    pkt.cmd1.isNone

/-- The packets of a block up to one the watcher fails on. -/
def loggable (packets : List Packet) : List Packet := packets.takeWhile (fun p => !unwatchable a p)

end

section
variable {a : Args} {s s' : State} {os : List Shown} {o : Shown}

structure Orderly (a : Args) (s : State) (os : List Shown) : Prop where
  emitted : ∀ e ∈ MonitorService.emitted os, e.2 = true
  alive : s.worker ≠ .dead
  watcher : s.watcher.isSome = a.watch_all_on.isSome
  decoded : MonitorService.decoded os = (taken os).filter (publishable a)
  handled : MonitorService.handled os ++ loggable a s.todo =
    (packetsOf a (MonitorService.decoded os)).flatMap (loggable a)

theorem Orderly.leaves (hs : Orderly a s os) (h : LeavesPackets s s' o)
    (hemitted : ∀ e ∈ o.emitted, e.2 = true) (halive : s'.worker ≠ .dead)
    (hwatcher : s'.watcher = s.watcher) : Orderly a s' (os ++ [o]) := by
  have htaken : taken (os ++ [o]) = taken os := by simp [taken, h.taken]
  have hdecoded : MonitorService.decoded (os ++ [o]) = MonitorService.decoded os := by
    simp [MonitorService.decoded, h.decoded]
  have hhandled : MonitorService.handled (os ++ [o]) = MonitorService.handled os := by
    simp [MonitorService.handled, h.handled]
  refine ⟨?_, halive, ?_, ?_, ?_⟩
  · intro e he
    rw [MonitorService.emitted, List.flatMap_append] at he
    obtain hold | hnew := List.mem_append.mp he
    · exact hs.emitted e hold
    · exact hemitted e (by simpa using hnew)
  · rw [hwatcher]
    exact hs.watcher
  · rw [hdecoded, htaken]
    exact hs.decoded
  · rw [hhandled, h.todo, hdecoded]
    exact hs.handled

theorem Orderly.loop (hs : Orderly a s os) (h : LeavesThread s s' o) : Orderly a s' (os ++ [o]) := by
  refine hs.leaves h.packets ?_ ?_ h.watcher
  · rw [h.emitted]
    exact fun e he => absurd he List.not_mem_nil
  · rw [h.worker]
    exact hs.alive

end

end MonitorService

end InsteonRf
