import Mathlib.Data.Fintype.Card
import Mathlib.Data.List.FinRange
import Mathlib.Logic.Function.Basic
/-!
# The hotel (`opal/class/opal_hotel.h`, `opal_hotel.c`)

| here | there |
| --- | --- |
| `Hotel` | `opal_hotel_t` (`opal_hotel.h:104-128`); `unoccupied` is the used part of the stack `unoccupied_rooms`, top first |
| `Hotel.init` | `opal_hotel_init` (`opal_hotel.c:37-91`) |
| `Hotel.checkin` | `opal_hotel_checkin` (`opal_hotel.h:178-201`); `none` is `OPAL_ERR_TEMP_OUT_OF_RESOURCE` |
| `checkoutAndReturnOccupant` | the function of that name (`opal_hotel.h:272-296`) |
| `Hotel.checkout` | `opal_hotel_checkout` (`opal_hotel.h:237-259`), what an eviction does to the room |

That the stack holds exactly the empty rooms, each once, is part of a hotel, so `checkin` fails
only when every room is taken (`checkin_eq_none_iff`). Room numbers are in range, and `none` is
the number `-1` with which callers mark "no room": for it the source reads `rooms[-1]`, in memory
before the array. Whether that is `NULL` is a parameter; if it is not, the source clears it,
deletes a timer there and puts `-1` on the stack, and nothing is said about what follows. The
eviction timers are not kept: a room can be evicted whenever it is occupied.
-/
namespace Sensys

structure Hotel (α : Type) (n : Nat) where
  rooms : Fin n → Option α
  unoccupied : List (Fin n)
  mem_unoccupied : ∀ r, r ∈ unoccupied ↔ rooms r = none
  nodup_unoccupied : unoccupied.Nodup

namespace Hotel

variable {α : Type} {n : Nat}

/-- The loop of the source leaves room `n - 1` on top of the stack. -/
def init (α : Type) (n : Nat) : Hotel α n where
  rooms := fun _ => none
  unoccupied := (List.finRange n).reverse
  mem_unoccupied := by simp
  nodup_unoccupied := List.nodup_reverse.2 (List.nodup_finRange n)

def checkin (h : Hotel α n) (occupant : α) : Option (Hotel α n × Fin n) :=
  match hu : h.unoccupied with
  | [] => none
  | r :: rest =>
    have hnd : (r :: rest).Nodup := hu ▸ h.nodup_unoccupied
    some ({ rooms := Function.update h.rooms r (some occupant)
            unoccupied := rest
            mem_unoccupied := by
              intro x
              have hx := h.mem_unoccupied x
              rw [hu, List.mem_cons] at hx
              rcases eq_or_ne x r with rfl | hne
              · simp [(List.nodup_cons.1 hnd).1]
              · simpa [hne] using hx
            nodup_unoccupied := (List.nodup_cons.1 hnd).2 }, r)

def checkout (h : Hotel α n) (room : Fin n) : Hotel α n :=
  match hr : h.rooms room with
  | none => h
  | some _ =>
    { rooms := Function.update h.rooms room none
      unoccupied := room :: h.unoccupied
      mem_unoccupied := by
        intro x
        rcases eq_or_ne x room with rfl | hne
        · simp
        · simpa [hne] using h.mem_unoccupied x
      nodup_unoccupied := by
        refine List.nodup_cons.2 ⟨fun hmem => ?_, h.nodup_unoccupied⟩
        rw [h.mem_unoccupied, hr] at hmem
        cases hmem }

/-- The second component is what is written to the caller's variable `occupant`, which keeps its
value when nobody is in the room. `stray`: the pointer read at `rooms[-1]` is not `NULL`. -/
def checkoutAndReturnOccupant (h : Hotel α n) (room : Option (Fin n)) (stray : Bool) :
    Option (Hotel α n × Option α) :=
  match room with
  | none => if stray then none else some (h, none)
  | some r => some (h.checkout r, h.rooms r)

@[simp] theorem rooms_init (r : Fin n) : (init α n).rooms r = none := rfl

theorem checkin_spec {h h' : Hotel α n} {a : α} {r : Fin n} (hc : h.checkin a = some (h', r)) :
    h.rooms r = none ∧ h'.rooms = Function.update h.rooms r (some a) := by
  unfold checkin at hc
  split at hc
  · cases hc
  · rename_i r' rest hu
    obtain ⟨rfl, rfl⟩ := Prod.mk.inj (Option.some.inj hc)
    exact ⟨(h.mem_unoccupied r').1 (by simp [hu]), rfl⟩

theorem checkin_eq_none_iff {h : Hotel α n} {a : α} :
    h.checkin a = none ↔ ∀ r, h.rooms r ≠ none := by
  unfold checkin
  constructor
  · intro hc r hr
    split at hc
    · rename_i hu
      have hmem := (h.mem_unoccupied r).2 hr
      rw [hu] at hmem
      cases hmem
    · cases hc
  · intro hf
    split
    · rfl
    · rename_i r rest hu
      exact absurd ((h.mem_unoccupied r).1 (by simp [hu])) (hf r)

@[simp] theorem checkout_rooms (h : Hotel α n) (r : Fin n) :
    (h.checkout r).rooms = Function.update h.rooms r none := by
  unfold checkout
  split
  · rename_i hr
    exact (Function.update_eq_self_iff.2 hr.symm).symm
  · rfl

end Hotel
end Sensys
