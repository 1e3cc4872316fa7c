import StubProfile.Lib.LongestPrefix

/-!
# Tables of prefixes

What the route table and its auxiliary trie are for: a table of prefixes of IPv4 addresses with their next hops, which
calls insert into and delete from.
-/

namespace StubProfile.Route

open LongestPrefix

variable {ν : Type} {ip : BitVec 32}

/-- The first `m` bits of an address. -/
def topBits (ip : BitVec 32) (m : Nat) : Nat := ip.toNat / 2 ^ (32 - m)

/-- No bit of `ip` is set beyond the first `cidr`. -/
def Masked (ip : BitVec 32) (cidr : Nat) : Prop := ip.toNat % 2 ^ (32 - cidr) = 0

instance (ip : BitVec 32) (cidr : Nat) : Decidable (Masked ip cidr) := inferInstanceAs (Decidable (_ = _))

theorem topBits_lt (ip : BitVec 32) {m : Nat} (hm : m ≤ 32) : topBits ip m < 2 ^ m := by
  rw [topBits, Nat.div_lt_iff_lt_mul (Nat.two_pow_pos _), ← Nat.pow_add, show m + (32 - m) = 32 by omega]
  exact ip.isLt

/-- The next hops by the length and the value of the prefix. -/
abbrev Table (ν : Type) := Nat → Nat → Option ν

def Table.empty : Table ν := fun _ _ => none

/-- The calls that change a table. -/
inductive RouteOp (ν : Type) where
  | insert (ip : BitVec 32) (cidr : Nat) (nhi : ν)
  | delete (ip : BitVec 32) (cidr : Nat)

/-- The table after a call. -/
def RouteOp.apply (T : Table ν) : RouteOp ν → Table ν
  | .insert ip cidr nhi => assign T cidr (topBits ip cidr) (some nhi)
  | .delete ip cidr => assign T cidr (topBits ip cidr) none

/-- The table after a sequence of calls, from the empty one. -/
def Table.after (ops : List (RouteOp ν)) : Table ν := ops.foldl RouteOp.apply Table.empty

end StubProfile.Route
