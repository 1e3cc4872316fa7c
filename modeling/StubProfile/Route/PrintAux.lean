import StubProfile.Route.AuxTrie

/-!
# Printing the auxiliary trie

`print_aux_prefix` visits every node and builds the prefixes anew from the positions of the bits.  The rules of a node
at the depth `d` and the nodes below it complete the first `4 * d` bits of the address, which are given to the call.
So each stored prefix is printed once, with its address, its length and its next hop.
-/

namespace StubProfile.Route

open Enumeration Machine

variable {ν : Type} {T : Table ν} {node sub : MbNode ν} {ip : BitVec 32} {leftBits curCidr cidr bits : Nat}
  {c : PrintCall ν}

/-! ### Completing an address -/

private theorem bits_lt (hbits : bits < 2 ^ cidr) (hcidr : cidr ≤ leftBits) :
    bits * 2 ^ (leftBits - cidr) < 2 ^ leftBits := by
  have := Nat.mul_lt_mul_of_pos_right hbits (Nat.two_pow_pos (leftBits - cidr))
  rwa [← Nat.pow_add, show cidr + (leftBits - cidr) = leftBits by omega] at this

/-- The bits go to where the address has zeros. -/
private theorem shiftTo_eq (hip : 2 ^ leftBits ∣ ip.toNat) (hbits : bits < 2 ^ cidr) (hcidr : cidr ≤ leftBits)
    (hleft : leftBits ≤ 32) (hshift : leftBits - cidr < 32) :
    ∃ low, shiftTo bits leftBits cidr = some low ∧
      (ip ||| low).toNat = ip.toNat + bits * 2 ^ (leftBits - cidr) := by
  refine ⟨_, if_pos ⟨hcidr, hshift⟩, ?_⟩
  have hlt := bits_lt hbits hcidr
  have hpow : 2 ^ leftBits ≤ 2 ^ 32 := Nat.pow_le_pow_right (by omega) hleft
  have hsmall : bits < 2 ^ 32 := by
    have := Nat.pow_le_pow_right (show 0 < 2 by omega) (show cidr ≤ 32 by omega)
    omega
  obtain ⟨q, hq⟩ := hip
  rw [BitVec.toNat_or, BitVec.toNat_shiftLeft, BitVec.toNat_ofNat, Nat.mod_eq_of_lt hsmall, Nat.shiftLeft_eq,
    Nat.mod_eq_of_lt (Nat.lt_of_lt_of_le hlt hpow), hq, Nat.two_pow_add_eq_or_of_lt hlt]

/-! ### The rules of a node -/

/-- The call for the prefix of the length `len` and the value `v` of a node, where `left_bits` bits of the address are
still open and the ones before have the length `cur_cidr`. -/
structure PrintsAt (node : MbNode ν) (ip : BitVec 32) (leftBits curCidr len v : Nat) (c : PrintCall ν) : Prop where
  entry : node.toTable len v = some c.nhi
  cidr_eq : c.cidr = curCidr + len
  ip_eq : c.ip.toNat = ip.toNat + v * 2 ^ (leftBits - len)

/-- The call is for one of the prefixes of a node. -/
def Prints (node : MbNode ν) (ip : BitVec 32) (leftBits curCidr : Nat) (c : PrintCall ν) : Prop :=
  ∃ len v, v < 2 ^ len ∧ PrintsAt node ip leftBits curCidr len v c

/-- What is known of a node when it is printed: it has no prefix longer than the open bits, which are zeros of the
address. -/
structure Printable (node : MbNode ν) (ip : BitVec 32) (leftBits : Nat) : Prop where
  wf : node.WF
  left : leftBits ≤ 32
  zeros : 2 ^ leftBits ∣ ip.toNat
  short : ∀ len v, v < 2 ^ len → node.toTable len v ≠ none → len ≤ leftBits
  root : leftBits = 32 → node.toTable 0 0 = none

private theorem printRule_enumerates (h : Printable node ip leftBits) (hcidr : cidr < 4) (hbits : bits < 2 ^ cidr) :
    Enumerates (PrintsAt node ip leftBits curCidr cidr bits) (printRule node ip leftBits curCidr cidr bits) := by
  have hpos := countInlBitmap_lt hcidr hbits
  have htable : node.toTable cidr bits = node.rule (countInlBitmap bits cidr) := MbNode.toTable_of_lt hcidr
  rw [printRule, hasBit_eq]
  obtain ⟨hbit, hnone⟩ | ⟨nhi, hbit, hget, hrule⟩ := h.wf.rule_eq (show countInlBitmap bits cidr < 16 by omega)
  · rw [hbit, if_neg (by simp)]
    refine enumerates_nil fun c hc => ?_
    have := hc.entry
    rw [htable, hnone] at this
    cases this
  · rw [hrule] at htable
    have hle := h.short cidr bits hbits (by simp [htable])
    have hshift : leftBits - cidr < 32 := by
      by_contra hge
      have hleft := h.left
      obtain ⟨rfl, rfl⟩ : leftBits = 32 ∧ cidr = 0 := by omega
      obtain rfl : bits = 0 := by omega
      cases htable.symm.trans (h.root rfl)
    obtain ⟨low, hlow, hor⟩ := shiftTo_eq h.zeros hbits hle h.left hshift
    rw [hbit, hget, hlow, if_pos rfl]
    refine enumerates_singleton fun c => ?_
    constructor
    · rintro ⟨hentry, hlen, hip⟩
      obtain ⟨cip, ccidr, cnhi⟩ := c
      have hip' : cip = ip ||| low := BitVec.eq_of_toNat_eq (hip.trans hor.symm)
      have hnhi : cnhi = nhi := Option.some.inj (hentry.symm.trans htable)
      rw [hip', hnhi, show ccidr = curCidr + cidr from hlen]
    · rintro rfl
      exact ⟨htable, rfl, hor⟩

private theorem printRules_enumerates (h : Printable node ip leftBits) :
    Enumerates (fun c => ∃ len < 4, ∃ v < 2 ^ len, PrintsAt node ip leftBits curCidr len v c)
      (printRules node ip leftBits curCidr) := by
  refine (enumerates_collect (P := fun len c => ∃ v < 2 ^ len, PrintsAt node ip leftBits curCidr len v c)
    List.nodup_range (fun len hlen => ?_) ?_).congr fun c => by simp
  · rw [List.mem_range] at hlen
    refine (enumerates_collect (P := fun v c => PrintsAt node ip leftBits curCidr len v c) List.nodup_range
      (fun v hv => ?_) ?_).congr fun c => by simp [Nat.one_shiftLeft]
    · rw [List.mem_range, Nat.one_shiftLeft] at hv
      exact printRule_enumerates h hlen hv
    · -- two values of one length give two addresses
      intro v _ v' _ c hc hc'
      have := hc.ip_eq.symm.trans hc'.ip_eq
      exact Nat.eq_of_mul_eq_mul_right (Nat.two_pow_pos (leftBits - len)) (by omega)
  · rintro len - len' - c ⟨v, -, hc⟩ ⟨v', -, hc'⟩
    have := hc.cidr_eq.symm.trans hc'.cidr_eq
    omega

/-! ### The nodes below -/

/-- The child for the bits `s` is printed with the address completed by them. -/
private theorem Printable.child (h : Printable node ip leftBits) {s : Nat} (hs : s < 16)
    (hsub : node.child s = some sub) :
    ∃ low, 4 ≤ leftBits ∧ shiftTo s leftBits 4 = some low ∧
      (ip ||| low).toNat = ip.toNat + s * 2 ^ (leftBits - 4) ∧ Printable sub (ip ||| low) (leftBits - 4) := by
  obtain ⟨hne, hwf⟩ := h.wf.of_child hsub
  have hleft := h.left
  have hshort : ∀ len v, v < 2 ^ len → sub.toTable len v ≠ none → len + 4 ≤ leftBits := by
    intro len v hv hentry
    rw [← MbNode.toTable_child hsub hv] at hentry
    exact h.short _ _ (stride_lt hs hv) hentry
  obtain ⟨len, v, hv, hentry⟩ := hwf.exists_entry hne
  have hfour := hshort len v hv hentry
  obtain ⟨low, hlow, hor⟩ := shiftTo_eq h.zeros (show s < 2 ^ 4 by omega) (show 4 ≤ leftBits by omega) hleft (by omega)
  refine ⟨low, by omega, hlow, hor, hwf, by omega, ?_, fun len v hv hentry => ?_, fun h32 => by omega⟩
  · rw [hor]
    exact Nat.dvd_add (Nat.dvd_trans (Nat.pow_dvd_pow 2 (Nat.sub_le _ _)) h.zeros) (Nat.dvd_mul_left _ _)
  · have := hshort len v hv hentry
    omega

private theorem prints_child_iff {s : Nat} {ip' : BitVec 32} (hip' : ip'.toNat = ip.toNat + s * 2 ^ (leftBits - 4))
    (hsub : node.child s = some sub) (h : Printable sub ip' (leftBits - 4)) :
    Prints sub ip' (leftBits - 4) (curCidr + 4) c ↔
      ∃ len v, v < 2 ^ len ∧ PrintsAt node ip leftBits curCidr (len + 4) (s * 2 ^ len + v) c := by
  refine exists_congr fun len => exists_congr fun v => and_congr_right fun hv => ?_
  have htable := MbNode.toTable_child hsub hv
  have haddr : ∀ n, len ≤ leftBits - 4 → (n = ip'.toNat + v * 2 ^ (leftBits - 4 - len) ↔
      n = ip.toNat + (s * 2 ^ len + v) * 2 ^ (leftBits - (len + 4))) := by
    intro n hle
    rw [hip', show leftBits - (len + 4) = leftBits - 4 - len by omega, Nat.add_mul, Nat.mul_assoc, ← Nat.pow_add,
      show len + (leftBits - 4 - len) = leftBits - 4 by omega, Nat.add_assoc]
  constructor
  · rintro ⟨hentry, hcidr, hip⟩
    exact ⟨htable.trans hentry, by omega, (haddr _ (h.short len v hv (by simp [hentry]))).1 hip⟩
  · rintro ⟨hentry, hcidr, hip⟩
    rw [htable] at hentry
    exact ⟨hentry, by omega, (haddr _ (h.short len v hv (by simp [hentry]))).2 hip⟩

/-- The call is for a prefix below the child for the bits `s`. -/
def PrintsBelow (node : MbNode ν) (ip : BitVec 32) (leftBits curCidr s : Nat) (c : PrintCall ν) : Prop :=
  ∃ len v, v < 2 ^ len ∧ PrintsAt node ip leftBits curCidr (len + 4) (s * 2 ^ len + v) c

/-- The first bits behind the address tell the children apart. -/
private theorem PrintsBelow.stride_eq {s s' : Nat} (hc : PrintsBelow node ip leftBits curCidr s c)
    (hc' : PrintsBelow node ip leftBits curCidr s' c) : s = s' := by
  obtain ⟨len, v, hv, hentry, hcidr, hip⟩ := hc
  obtain ⟨len', v', hv', hentry', hcidr', hip'⟩ := hc'
  obtain rfl : len = len' := by omega
  have hsame := Nat.eq_of_mul_eq_mul_right (Nat.two_pow_pos (leftBits - (len + 4)))
    (show (s * 2 ^ len + v) * 2 ^ (leftBits - (len + 4)) = (s' * 2 ^ len + v') * 2 ^ (leftBits - (len + 4)) by omega)
  have hdiv := congrArg (· / 2 ^ len) hsame
  simpa only [Nat.mul_comm _ (2 ^ len), Nat.mul_add_div (Nat.two_pow_pos len), Nat.div_eq_of_lt hv, Nat.div_eq_of_lt hv',
    Nat.add_zero] using hdiv

/-- The prefixes of a node are its own rules and those below its children. -/
private theorem prints_iff : Prints node ip leftBits curCidr c ↔
    (∃ len < 4, ∃ v < 2 ^ len, PrintsAt node ip leftBits curCidr len v c) ∨
      ∃ s ∈ List.range 16, PrintsBelow node ip leftBits curCidr s c := by
  constructor
  · rintro ⟨len, v, hv, hc⟩
    by_cases hlen : len < 4
    · exact .inl ⟨len, hlen, v, hv, hc⟩
    · obtain ⟨k, rfl⟩ : ∃ k, len = k + 4 := ⟨len - 4, by omega⟩
      refine .inr ⟨v / 2 ^ k, ?_, k, v % 2 ^ k, Nat.mod_lt _ (Nat.two_pow_pos k), ?_⟩
      · rw [List.mem_range, Nat.div_lt_iff_lt_mul (Nat.two_pow_pos k), Nat.mul_comm, show 16 = 2 ^ 4 by rfl, ← Nat.pow_add]
        exact hv
      · rwa [Nat.mul_comm, Nat.div_add_mod]
  · rintro (⟨len, -, v, hv, hc⟩ | ⟨s, hs, len, v, hv, hc⟩)
    · exact ⟨len, v, hv, hc⟩
    · exact ⟨len + 4, _, stride_lt (List.mem_range.1 hs) hv, hc⟩

/-- Printing a node enumerates its prefixes. -/
private theorem printMbNodeIter_enumerates (h : Printable node ip leftBits) :
    Enumerates (Prints node ip leftBits curCidr) (printMbNodeIter node ip leftBits curCidr) := by
  induction leftBits using Nat.strongRecOn generalizing node ip curCidr with
  | ind leftBits ih =>
    rw [printMbNodeIter]
    refine Enumerates.congr (Enumerates.followedBy (printRules_enumerates h) (enumerates_collect
      (P := PrintsBelow node ip leftBits curCidr) List.nodup_range (fun s hs => ?_) fun _ _ _ _ _ =>
        PrintsBelow.stride_eq) ?_) fun c => prints_iff.symm
    · rw [List.mem_range] at hs
      simp only [countEnlBitmap, hasBit_eq]
      obtain ⟨hbit, hnone⟩ | ⟨sub, hbit, hget, hsub⟩ := h.wf.child_eq hs
      · rw [hbit, if_neg (by simp)]
        refine enumerates_nil fun c => ?_
        rintro ⟨len, v, hv, hc⟩
        have hentry := hc.entry
        rw [MbNode.toTable_add_four, Nat.mul_comm, Nat.mul_add_div (Nat.two_pow_pos len), Nat.div_eq_of_lt hv,
          Nat.add_zero, hnone] at hentry
        cases hentry
      · obtain ⟨low, hfour, hlow, hor, hprint⟩ := h.child hs hsub
        rw [hbit, if_pos rfl]
        split
        · rename_i next hnext
          rw [hget] at hnext
          cases hnext
          simp only [hlow]
          exact (ih (leftBits - 4) (by omega) hprint).congr fun c => prints_child_iff hor hsub hprint
        · rename_i hnext
          cases hget.symm.trans hnext
    · rintro c ⟨len, hlen, v, -, hc⟩ ⟨s, -, k, u, -, hc'⟩
      have := hc.cidr_eq.symm.trans hc'.cidr_eq
      omega

/-! ### The whole trie -/

private theorem Represents.printable (h : Represents T node) : Printable node 0 32 where
  wf := h.wf
  left := Nat.le_refl 32
  zeros := Nat.dvd_zero _
  short len v hv hentry := by
    rw [h.table len v hv] at hentry
    exact (h.within len v hentry).2
  root _ := h.root

private theorem Represents.prints_iff (h : Represents T node) :
    Prints node 0 32 0 c ↔ Masked c.ip c.cidr ∧ T c.cidr (topBits c.ip c.cidr) = some c.nhi := by
  constructor
  · rintro ⟨len, v, hv, hentry, hcidr, hip⟩
    rw [Nat.zero_add] at hcidr
    rw [show (0 : BitVec 32).toNat = 0 by rfl, Nat.zero_add] at hip
    rw [hcidr, Masked, topBits, hip, Nat.mul_mod_left, Nat.mul_div_cancel _ (Nat.two_pow_pos _), ← h.table len v hv]
    exact ⟨rfl, hentry⟩
  · rintro ⟨hmask, hentry⟩
    have hcidr := (h.within c.cidr (topBits c.ip c.cidr) (by simp [hentry])).2
    refine ⟨c.cidr, topBits c.ip c.cidr, topBits_lt _ hcidr, ?_, (Nat.zero_add _).symm, ?_⟩
    · rw [h.table _ _ (topBits_lt _ hcidr), hentry]
    · rw [show (0 : BitVec 32).toNat = 0 by rfl, Nat.zero_add, topBits, Nat.div_mul_cancel (Nat.dvd_of_mod_eq_zero hmask)]

/-- After every sequence of legal calls `print_aux_prefix` calls `print_ptr` once for each stored prefix, with its
address, its length and its next hop, and for nothing else. -/
theorem printAuxPrefix_exact (ops : List (RouteOp ν)) (h : Allowed RouteOp.apply AuxLegal Table.empty ops) :
    ∃ node calls, run auxStep .empty ops = .ok node ∧ printAuxPrefix node = some calls ∧ calls.Nodup ∧
      ∀ ip cidr nhi, ⟨ip, cidr, nhi⟩ ∈ calls ↔ Masked ip cidr ∧ Table.after ops cidr (topBits ip cidr) = some nhi := by
  obtain ⟨node, hrun, hrep⟩ := represents_after h
  obtain ⟨calls, hcalls, hnodup, hmem⟩ : Enumerates (Prints node 0 32 0) (printAuxPrefix node) :=
    printMbNodeIter_enumerates hrep.printable
  exact ⟨node, calls, hrun, hcalls, hnodup, fun ip cidr nhi => (hmem _).trans hrep.prints_iff⟩

/-- Of the two prefixes inserted the one that was not deleted is printed. -/
theorem printAuxPrefix_exact_nested :
    Allowed RouteOp.apply AuxLegal Table.empty nestedOps ∧
      ∃ node calls, run auxStep .empty nestedOps = .ok node ∧ printAuxPrefix node = some calls ∧
        ⟨0x0a010000, 16, 2⟩ ∈ calls ∧ ⟨0x0a000000, 8, 1⟩ ∉ calls := by
  obtain ⟨node, calls, hrun, hcalls, -, hmem⟩ := printAuxPrefix_exact nestedOps allowed_nestedOps
  exact ⟨allowed_nestedOps, node, calls, hrun, hcalls, (hmem _ _ _).2 (by decide), fun hprinted =>
    absurd ((hmem _ _ _).1 hprinted) (by decide)⟩

end StubProfile.Route
