/-!
# Sizes

Sizes are 64-bit words, and a storage takes at most half of them. Room is asked of an allocator
before a result is built. What it grants is not for the program to say, so an allocator is a
parameter of whatever reserves room; the program itself runs with one of them.
-/

namespace CodePointText
namespace Size

/-- The first number that is no word. -/
def limit : Nat := 0x10000000000000000

/-- The largest size of a storage in bytes. -/
def largest : Nat := 0x7FFFFFFFFFFFFFFF

/-- A product of sizes: none if it is no word. -/
def mul? (a b : Nat) : Option Nat := if a * b < limit then some (a * b) else none

def add? (a b : Nat) : Option Nat := if a + b < limit then some (a + b) else none

def copiesFit (size copies : Nat) : Bool := ((mul? size copies).filter (· ≤ largest)).isSome

/-- The low 64 bits of an integer, read with a sign. -/
def signed (i : Int) : Int := i.bmod 0x10000000000000000

def unsigned (i : Int) : Nat := (i % 0x10000000000000000).toNat

theorem signed_of_mem {i : Int} (h : -0x8000000000000000 ≤ i) (h' : i < 0x8000000000000000) :
    signed i = i := by
  unfold signed
  exact Int.bmod_eq_of_le (by omega) (by omega)

theorem unsigned_of_mem {i : Int} (h : 0 ≤ i) (h' : i < 0x10000000000000000) :
    unsigned i = i.toNat := by
  rw [unsigned, Int.emod_eq_of_lt h h']

theorem copiesFit_iff {size copies : Nat} : copiesFit size copies ↔ size * copies ≤ largest := by
  unfold copiesFit mul?
  split
  · simp [Option.filter]
  · next h =>
    simp only [limit, largest] at h ⊢
    simp
    omega

end Size

/-- Whether so many bytes of a string, and so many words of code points, can be reserved. -/
structure Allocator where
  bytes : Nat → Bool
  words : Nat → Bool

namespace Allocator

/-- Nothing from 2^60 on is granted. -/
structure Bounded (memory : Allocator) : Prop where
  bytes_lt {size : Nat} (h : memory.bytes size) : size < 0x1000000000000000
  words_lt {size : Nat} (h : memory.words size) : size < 0x1000000000000000

/-- Grants all that takes no more than so many bytes; a word takes four. -/
def ofRoom (room : Nat) : Allocator where
  bytes size := size ≤ room
  words size := 4 * size ≤ room

/-- The allocator of the program: addresses have 47 bits. -/
def process : Allocator := ofRoom 0x7FFFFFFFFFFF

theorem bounded_ofRoom {room : Nat} (h : room < 0x1000000000000000) : (ofRoom room).Bounded where
  bytes_lt hsize := by
    have hle := of_decide_eq_true hsize
    omega
  words_lt hsize := by
    have hle := of_decide_eq_true hsize
    omega

theorem bounded_process : process.Bounded := bounded_ofRoom (by decide)

end Allocator
end CodePointText
