import Fsock.Lib.Run
import Fsock.Core.ListFramer
import Fsock.Core.WriterOrder

namespace Fsock

open Transition Segment

namespace Conn

variable {ρ : Type} {F : Framer ρ}

theorem send_order (hF : F.Lawful) {tr : List (Conn ρ × ConnLabel)} {c : Conn ρ}
    (hr : Run (Conn.step F) (Conn.init F) tr c) (hn : Steps (fun _ l => NoError l) tr) :
    Steps Calm tr ↔ Visits (Ordered F) tr c := by
  refine Run.exact (I := fun c => ∃ xs ys, c.Linked F xs ys) ?_ ?_ ?_ ?_ hr hn
  · exact ⟨[], [], linked_init hF⟩
  · rintro c ⟨xs, ys, h⟩
    exact h.ordered
  · rintro c l c' ⟨xs, ys, h⟩ hn hc hs
    obtain ⟨xs', ys', h', -⟩ := follows_step hF h hn hc hs
    exact ⟨xs', ys', h'⟩
  · rintro c l c' ⟨xs, ys, h⟩ - hc hs
    cases l with
    | merge => exact merge_strays h hc hs
    | _ => exact absurd (by simp) hc

def delayed : List ConnLabel :=
  [.insert 1 (letter 65), .startWrite, .ready, .steal, .writev .wouldBlock, .merge,
    .insert 2 (letter 66), .ready, .steal, .writev (.wrote 2), .steal]

def overtaken : List ConnLabel :=
  [.insert 1 (letter 65), .startWrite, .ready, .steal, .insert 2 (letter 66),
    .writev .wouldBlock, .merge, .insert 3 (letter 67)]

theorem send_order_delayed : Visits (Ordered listFramer)
    (trace (Conn.step listFramer) (Conn.init listFramer) delayed)
    (final (Conn.step listFramer) (Conn.init listFramer) delayed) :=
  (send_order listFramer_lawful (run_final rfl) (by decide)).mp (by decide)

theorem overtaken_loses_frame : ∃ c, Run (Conn.step listFramer) (Conn.init listFramer)
      (trace (Conn.step listFramer) (Conn.init listFramer) overtaken) c ∧
    Steps (fun _ l => NoError l) (trace (Conn.step listFramer) (Conn.init listFramer) overtaken) ∧
    c.accepted.map Frame.bytes = [[65], [66], [67]] ∧ c.kernel = [] ∧
    Seg some c.items.next c.ol.list.first [1, 3] none ∧ ¬ c.Ordered listFramer := by
  have hseg : Seg some (final (Conn.step listFramer) (Conn.init listFramer) overtaken).items.next
      (final (Conn.step listFramer) (Conn.init listFramer) overtaken).ol.list.first [1, 3] none :=
    ⟨rfl, rfl, rfl⟩
  refine ⟨_, run_final rfl, by decide, rfl, rfl, hseg, ?_⟩
  rintro ⟨xs, ys, hx, -, ho, -⟩
  obtain rfl := seg_unique (Option.some_injective _) (by simp) hx hseg
  have hbytes : ([65, 67] : List UInt8) = [65, 66, 67] := ho
  exact absurd hbytes (by decide)

end Conn

end Fsock
