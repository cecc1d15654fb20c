import Mathlib.Tactic.IntervalCases
import Coring.Net.Address
import Coring.Net.Endian

/-!
# Endpoints as text

`net::endpoint` of `include/coring/endpoint.hpp` keeps an IPv4 address and a port in a
`sockaddr_in`, both in network byte order.  It is made from an address and a port or from one
string that holds them, and it gives the address or both as text.

The text of an address is built octet by octet from the number that `sin_addr` is on a little endian
host, and the octet in its highest byte, the last of the text, is shifted down as a signed number.
From 128 on it comes out negative (`octetValue_eq`).  The text of a port is written over the colon
that should stand in front of it (`toStr_eq`), and the port of a string is read from the colon on,
where there is no number (`atoi_colon`).
-/

namespace Coring

/-- `AF_INET`. -/
def afInet : ℕ := 2

/-- The `sockaddr_in` of an `endpoint`. -/
structure Endpoint where
  sinFamily : ℕ
  sinPort : BitVec 16
  sinAddr : BitVec 32
  deriving Repr, DecidableEq

namespace Endpoint

variable (host : ByteOrder)

/-- `host_to_network(uint16_t)`. -/
def portToNetwork (port : BitVec 16) : BitVec 16 := htobe host ⟨false, .w16⟩ port

/-- `network_to_host(uint16_t)`. -/
def portToHost (port : BitVec 16) : BitVec 16 := betoh host ⟨false, .w16⟩ port

/-- `endpoint(const std::string &ip, uint16_t port)`. -/
def ofIpAndPort (ip : List Char) (port : BitVec 16) : Except String Endpoint :=
  match inetPton (cString ip) with
  | some addr => .ok ⟨afInet, portToNetwork host port, wordOf 4 addr host⟩
  | none => .error "wrong ip address form"

/-- `endpoint(const std::string &ip_port)`. -/
def ofIpPort (ipPort : List Char) : Except String Endpoint :=
  match strchr (cString ipPort) ':' with
  | none => .error "not a ip_port address"
  | some split =>
    let portNum := BitVec.ofInt 16 (atoi ((cString ipPort).drop split))
    let ip := ipPort.take split
    match inetPton (cString ip) with
    | some addr => .ok ⟨afInet, portToNetwork host portNum, wordOf 4 addr host⟩
    | none => .error "wrong ip address form"

variable (e : Endpoint)

/-- `static_cast<int>(ipv4_int & (255 << pos)) >> pos` for the octet at `i`. -/
def octetValue (ipv4Int : BitVec 32) (i : ℕ) : ℤ :=
  let pos := i * 8
  let andV := ipv4Int &&& (255#32 <<< pos)
  (andV.sshiftRight pos).toInt

/-- What an array on the stack holds is overwritten before it is read. -/
def charArray (n : ℕ) : List Char := List.replicate n nul

/-- The loop over the octets, which `address_str` and `to_str` each have a copy of. -/
def ipStrs : Option (List (List Char)) :=
  (List.range 4).mapM fun i => (itoad (charArray 4) (octetValue e.sinAddr i)).map cString

/-- `address_str()`. -/
def addressStr : Option (List Char) := do
  let ipStrs ← e.ipStrs
  return ['.'].intercalate ipStrs

/-- `to_str()`. -/
def toStr : Option (List Char) := do
  let ipStrs ← e.ipStrs
  let portBuf := (charArray 10).set 0 ':'
  let p ← (itoad portBuf (portToHost host e.sinPort).toNat).map cString
  return ['.'].intercalate ipStrs ++ p

/-- The octets of the address in network order, on a little endian host. -/
def octets : List UInt8 := wordBytes (n := 4) e.sinAddr .little

@[simp] lemma length_octets : e.octets.length = 4 := length_wordBytes ..

/-! ## The octets -/

/-- The bits of an octet, taken out with a mask. -/
lemma and_mask (v pos : ℕ) : v &&& 255 <<< pos = v / 2 ^ pos % 256 * 2 ^ pos := by
  apply Nat.eq_of_testBit_eq
  intro j
  have hmask : (255 : ℕ) = 2 ^ 8 - 1 := rfl
  have hmod : (256 : ℕ) = 2 ^ 8 := rfl
  rw [← Nat.shiftLeft_eq, Nat.testBit_and, Nat.testBit_shiftLeft, Nat.testBit_shiftLeft, hmask,
    hmod, Nat.testBit_two_pow_sub_one, Nat.testBit_mod_two_pow, Nat.testBit_div_two_pow]
  by_cases hj : pos ≤ j
  · rw [Nat.sub_add_cancel hj]
    simp only [hj, decide_true, Bool.true_and, Bool.and_comm]
  · simp only [ge_iff_le, hj, decide_false, Bool.false_and, Bool.and_false]

/-- The octet at `i`, as a number. -/
def octetAt (ipv4Int : BitVec 32) (i : ℕ) : ℕ := ipv4Int.toNat / 2 ^ (i * 8) % 256

lemma octetAt_lt (ipv4Int : BitVec 32) (i : ℕ) : octetAt ipv4Int i < 256 := Nat.mod_lt _ (by decide)

lemma octets_eq : e.octets = (List.range 4).map fun i => UInt8.ofNat (octetAt e.sinAddr i) := by
  refine (leBytes_eq_map 4 e.sinAddr.toNat).trans (List.map_congr_left fun i _ => ?_)
  have hpow : 2 ^ (i * 8) = 256 ^ i := by rw [Nat.mul_comm, Nat.pow_mul]
  rw [octetAt, hpow]
  exact UInt8.toNat_inj.mp (by rw [UInt8.toNat_ofNat', UInt8.toNat_ofNat', Nat.mod_mod])

/-- What is printed for an octet: the last one is negative from 128 on. -/
lemma octetValue_eq (ipv4Int : BitVec 32) {i : ℕ} (hi : i < 4) :
    octetValue ipv4Int i = if i = 3 ∧ 128 ≤ octetAt ipv4Int i
      then (octetAt ipv4Int i : ℤ) - 256 else octetAt ipv4Int i := by
  have hlt := octetAt_lt ipv4Int i
  have hmask : (ipv4Int &&& (255#32 <<< (i * 8))).toNat = octetAt ipv4Int i * 2 ^ (i * 8) := by
    rw [BitVec.toNat_and, BitVec.toNat_shiftLeft, octetAt, ← and_mask]
    congr 1
    interval_cases i <;> rfl
  rw [octetValue, BitVec.toInt_sshiftRight, Int.shiftRight_eq_div_pow, BitVec.toInt_eq_toNat_cond,
    hmask]
  generalize octetAt ipv4Int i = o at hlt
  interval_cases i
  all_goals split <;> split <;> omega

/-! ## `address_str` -/

/-- `address_str()` gives the canonical text of the octets, each of which fits the array it is
printed into with its NUL, and reading the text gives the octets back. -/
def AddressFaithful : Prop :=
  e.addressStr = some (dotted e.octets) ∧
  (∀ i < 4, (decimal (octetValue e.sinAddr i)).length < 4) ∧
  e.addressStr.bind inetPton = some e.octets

/-- The text of a number below 256 has at most three digits. -/
lemma length_toDigits_octet {o : ℕ} (h : o < 256) : (Nat.toDigits 10 o).length < 4 := by
  have hle : (Nat.toDigits 10 o).length ≤ 3 :=
    (Nat.length_toDigits_le_iff (by decide) (by decide)).mpr (by omega)
  omega

/-- What the loop makes of an octet that is not shifted down as a negative number. -/
lemma decimal_octetValue {ipv4Int : BitVec 32} {i : ℕ} (hi : i < 4)
    (h : i = 3 → octetAt ipv4Int i < 128) :
    decimal (octetValue ipv4Int i) = Nat.toDigits 10 (octetAt ipv4Int i) := by
  have hval : octetValue ipv4Int i = octetAt ipv4Int i := by
    rw [octetValue_eq _ hi, if_neg]
    rintro ⟨hlast, hbig⟩
    have := h hlast
    omega
  rw [hval, decimal_of_nonneg (Int.natCast_nonneg _), Int.natAbs_natCast]

/-- And of one that is. -/
lemma decimal_octetValue_of_le {ipv4Int : BitVec 32} (h : 128 ≤ octetAt ipv4Int 3) :
    (decimal (octetValue ipv4Int 3)).head? = some '-' := by
  have hlt := octetAt_lt ipv4Int 3
  rw [octetValue_eq _ (by decide), if_pos ⟨rfl, h⟩, decimal, if_pos (by omega)]
  rfl

/-- The text of the octets in front of the last, with their dots. -/
def textUpToLast : List Char :=
  (List.range 3).flatMap fun i => Nat.toDigits 10 (octetAt e.sinAddr i) ++ ['.']

lemma intercalate_four (a b c d : List Char) :
    ['.'].intercalate [a, b, c, d] = [a, b, c].flatMap (· ++ ['.']) ++ d := by
  simp only [List.intercalate_cons_cons, List.intercalate_singleton, List.flatMap_cons,
    List.flatMap_nil, List.append_assoc, List.append_nil]

/-- The text that the loop puts together, if the last octet fits its array. -/
lemma addressStr_eq :
    e.addressStr = if (decimal (octetValue e.sinAddr 3)).length < 4
      then some (e.textUpToLast ++ decimal (octetValue e.sinAddr 3)) else none := by
  have hfits : ∀ i < 3, (itoad (charArray 4) (octetValue e.sinAddr i)).map cString
      = some (Nat.toDigits 10 (octetAt e.sinAddr i)) := by
    intro i hi
    rw [map_cString_itoad, decimal_octetValue (by omega) (by omega)]
    exact if_pos (length_toDigits_octet (octetAt_lt _ _))
  have hlast : (itoad (charArray 4) (octetValue e.sinAddr 3)).map cString
      = if (decimal (octetValue e.sinAddr 3)).length < 4
        then some (decimal (octetValue e.sinAddr 3)) else none := map_cString_itoad ..
  have hrange : List.range 4 = [0, 1, 2, 3] := rfl
  simp only [addressStr, ipStrs, hrange, List.mapM_cons, List.mapM_nil, hfits 0 (by decide),
    hfits 1 (by decide), hfits 2 (by decide), hlast]
  split
  · exact congrArg some (intercalate_four ..)
  · rfl

/-- The canonical text. -/
lemma dotted_octets :
    dotted e.octets = e.textUpToLast ++ Nat.toDigits 10 (octetAt e.sinAddr 3) := by
  have htext : ∀ i, (UInt8.ofNat (octetAt e.sinAddr i)).toNat = octetAt e.sinAddr i := by
    intro i
    rw [UInt8.toNat_ofNat', Nat.mod_eq_of_lt (octetAt_lt _ _)]
  have hrange : List.range 4 = [0, 1, 2, 3] := rfl
  rw [dotted, octets_eq, hrange]
  simp only [List.map_cons, List.map_nil, htext]
  exact intercalate_four ..

lemma getD_octets : (e.octets.getD 3 0).toNat = octetAt e.sinAddr 3 := by
  rw [octets_eq]
  exact Nat.mod_eq_of_lt (octetAt_lt _ _)

/-- **When `address_str` is faithful**: exactly when the last octet of the address is less than
128. -/
theorem addressFaithful_iff : e.AddressFaithful ↔ e.octets.getD 3 0 < 128 := by
  have hcond : e.octets.getD 3 0 < 128 ↔ octetAt e.sinAddr 3 < 128 := by
    rw [UInt8.lt_iff_toNat_lt, getD_octets]
    rfl
  rw [hcond]
  constructor
  · rintro ⟨htext, -⟩
    by_contra hbig
    have hminus := decimal_octetValue_of_le (Nat.le_of_not_lt hbig)
    rw [addressStr_eq] at htext
    split at htext
    · rw [Option.some_inj, dotted_octets, List.append_cancel_left_eq] at htext
      rw [htext] at hminus
      exact not_mem_toDigits (by decide) _ (List.mem_of_head? hminus)
    · cases htext
  · intro hsmall
    have htexts : ∀ i < 4, decimal (octetValue e.sinAddr i)
        = Nat.toDigits 10 (octetAt e.sinAddr i) := fun i hi =>
      decimal_octetValue hi fun hlast => hlast ▸ hsmall
    have hfits : ∀ i < 4, (decimal (octetValue e.sinAddr i)).length < 4 := fun i hi => by
      rw [htexts i hi]
      exact length_toDigits_octet (octetAt_lt _ _)
    have htext : e.addressStr = some (dotted e.octets) := by
      rw [addressStr_eq, if_pos (hfits 3 (by decide)), htexts 3 (by decide), dotted_octets]
    refine ⟨htext, hfits, ?_⟩
    rw [htext, Option.bind_some, inetPton_dotted e.length_octets]

/-- `192.168.1.200` is printed with `-56` for its last octet. -/
theorem addressStr_negative_octet :
    octets ⟨afInet, 0, 0xc801a8c0⟩ = [192, 168, 1, 200] ∧
    addressStr ⟨afInet, 0, 0xc801a8c0⟩ = some "192.168.1.-56".toList ∧
    ¬ AddressFaithful ⟨afInet, 0, 0xc801a8c0⟩ := by
  have htext : addressStr ⟨afInet, 0, 0xc801a8c0⟩ = some "192.168.1.-56".toList := by decide
  refine ⟨by decide, htext, ?_⟩
  rintro ⟨hfaithful, -⟩
  rw [htext] at hfaithful
  exact absurd hfaithful (by decide)

/-! ## `to_str` -/

/-- The documented form: the text of the address, a colon, and the port. -/
def DocumentedForm : Prop :=
  ∃ addr, e.addressStr = some addr ∧
    e.toStr host = some (addr ++ ':' :: Nat.toDigits 10 (portToHost host e.sinPort).toNat)

/-- The text of the port is written over the colon. -/
lemma toStr_eq : e.toStr host
    = e.addressStr.map (· ++ Nat.toDigits 10 (portToHost host e.sinPort).toNat) := by
  have hport : decimal ((portToHost host e.sinPort).toNat : ℤ)
      = Nat.toDigits 10 (portToHost host e.sinPort).toNat := by
    rw [decimal_of_nonneg (Int.natCast_nonneg _), Int.natAbs_natCast]
  have hfit : (Nat.toDigits 10 (portToHost host e.sinPort).toNat).length < 10 := by
    have hlt := (portToHost host e.sinPort).isLt
    have hle : (Nat.toDigits 10 (portToHost host e.sinPort).toNat).length ≤ 5 :=
      (Nat.length_toDigits_le_iff (by decide) (by decide)).mpr (by omega)
    omega
  have hlen : ((charArray 10).set 0 ':').length = 10 := rfl
  simp only [toStr, addressStr, map_cString_itoad, hport, hlen, if_pos hfit]
  cases e.ipStrs with
  | none => rfl
  | some strs => rfl

/-- **`to_str` never has the documented form**: it is the text of the address directly followed by
the port. -/
theorem not_documentedForm : e.toStr host
      = e.addressStr.map (· ++ Nat.toDigits 10 (portToHost host e.sinPort).toNat) ∧
    ¬ e.DocumentedForm host := by
  refine ⟨toStr_eq host e, ?_⟩
  rintro ⟨addr, haddr, htext⟩
  rw [toStr_eq, haddr, Option.map_some, Option.some_inj, List.append_cancel_left_eq] at htext
  have hlen := congrArg List.length htext
  rw [List.length_cons] at hlen
  omega

/-- Port 11 of `1.1.1.1` and port 1 of `1.1.1.11` have the same text. -/
theorem toStr_not_injective :
    ¬ DocumentedForm .little ⟨afInet, 0x0b00, 0x01010101⟩ ∧
    toStr .little ⟨afInet, 0x0b00, 0x01010101⟩ = some "1.1.1.111".toList ∧
    toStr .little ⟨afInet, 0x0100, 0x0b010101⟩ = some "1.1.1.111".toList := by
  have htext : toStr .little ⟨afInet, 0x0b00, 0x01010101⟩ = some "1.1.1.111".toList := by decide
  have haddr : addressStr ⟨afInet, 0x0b00, 0x01010101⟩ = some "1.1.1.1".toList := by decide
  refine ⟨?_, htext, by decide⟩
  rintro ⟨addr, haddr', hform⟩
  rw [haddr, Option.some_inj] at haddr'
  rw [htext, ← haddr', Option.some_inj] at hform
  exact absurd hform (by decide)

/-! ## Endpoints from strings -/

lemma strchr_append {s : List Char} {c : Char} (h : c ∉ s) (rest : List Char) :
    strchr (s ++ c :: rest) c = some s.length := by
  have hnone : s.findIdx? (· = c) = none :=
    List.findIdx?_eq_none_iff.mpr fun d hd => decide_eq_false fun heq => h (heq ▸ hd)
  rw [strchr, List.findIdx?_append, hnone, List.findIdx?_cons, decide_eq_true rfl]
  simp only [if_true, Option.map_some, Nat.zero_add]
  rfl

lemma strchr_cString_eq_none {s : List Char} {c : Char} (h : c ∉ s) :
    strchr (cString s) c = none :=
  List.findIdx?_eq_none_iff.mpr fun _ hd =>
    decide_eq_false fun heq => h (mem_of_mem_cString (heq ▸ hd))

/-- There is no number at a colon. -/
lemma atoi_colon (rest : List Char) : atoi (':' :: rest) = 0 := by
  have hdigits : (':' :: rest).takeWhile Char.isDigit = [] :=
    List.takeWhile_cons_of_neg (by decide)
  rw [atoi, List.dropWhile_cons_of_neg (by decide)]
  change ((Nat.ofDigitChars 10 ((':' :: rest).takeWhile Char.isDigit) 0 : ℕ) : ℤ) = 0
  rw [hdigits]
  rfl

/-- Whatever follows the colon, the port is 0. -/
lemma ofIpPort_append {ip : List Char} (hnul : nul ∉ ip) (hcolon : ':' ∉ ip) (rest : List Char) :
    ofIpPort host (ip ++ ':' :: rest) = ofIpAndPort host ip 0 := by
  have hstr : cString (ip ++ ':' :: rest) = ip ++ ':' :: cString rest := by
    rw [cString_append hnul]
    exact congrArg (ip ++ ·) (List.takeWhile_cons_of_pos (by decide))
  simp only [ofIpPort, ofIpAndPort, hstr, strchr_append hcolon, List.drop_left, List.take_left,
    atoi_colon]
  rfl

lemma portToNetwork_injective : Function.Injective (portToNetwork host) := by
  intro p q h
  have hswapped : toBigEndian (n := 2) host p = toBigEndian (n := 2) host q := h
  have hback := toBigEndian_involutive (n := 2) host p
  rw [hswapped] at hback
  exact hback.symm.trans (toBigEndian_involutive (n := 2) host q)

/-- **When a string is parsed to its address and port.**  For every address that `inet_pton`
accepts, the endpoint made from the address, a colon and the text of the port holds both, and is
the one made from the two, if and only if the port is 0.  A string without a colon, or with an
address in front of it that is not accepted, is refused. -/
theorem ofIpPort_eq_iff {ip : List Char} {octets : List UInt8} (hip : inetPton ip = some octets)
    (port : BitVec 16) :
    ((ofIpPort host (ip ++ ':' :: Nat.toDigits 10 port.toNat)
        = .ok ⟨afInet, portToNetwork host port, wordOf 4 octets host⟩ ∧
      ofIpPort host (ip ++ ':' :: Nat.toDigits 10 port.toNat) = ofIpAndPort host ip port) ↔
      port = 0) ∧
    (∀ s, ':' ∉ s → ∃ what, ofIpPort host s = .error what) ∧
    ∀ s rest, ':' ∉ s → inetPton (cString s) = none →
      ∃ what, ofIpPort host (s ++ ':' :: rest) = .error what := by
  have hchars := isDigit_of_inetPton hip
  have hnul : nul ∉ ip := fun hmem => absurd (hchars nul hmem) (by decide)
  have hcolon : ':' ∉ ip := fun hmem => absurd (hchars ':' hmem) (by decide)
  have htwo : ∀ p, ofIpAndPort host ip p
      = .ok ⟨afInet, portToNetwork host p, wordOf 4 octets host⟩ := by
    intro p
    simp only [ofIpAndPort, cString_of_nul_not_mem hnul, hip]
  refine ⟨?_, ?_, ?_⟩
  · rw [ofIpPort_append host hnul hcolon, htwo, htwo, and_self]
    constructor
    · intro heq
      rw [Except.ok.injEq, Endpoint.mk.injEq] at heq
      exact (portToNetwork_injective host heq.2.1).symm
    · rintro rfl
      rfl
  · intro s hs
    exact ⟨_, by simp only [ofIpPort, strchr_cString_eq_none hs]; rfl⟩
  · intro s rest hs hrejected
    by_cases hend : nul ∈ s
    · -- The string ends before the colon.
      have hnone : strchr (cString (s ++ ':' :: rest)) ':' = none := by
        rw [cString_append_of_mem hend]
        exact strchr_cString_eq_none hs
      exact ⟨_, by simp only [ofIpPort, hnone]; rfl⟩
    · refine ⟨"wrong ip address form", ?_⟩
      rw [ofIpPort_append host hend hs, ofIpAndPort, hrejected]

/-- Port 0 of the local address is read as it should be. -/
theorem ofIpPort_eq_iff_local :
    ofIpPort .little "127.0.0.1:0".toList = ofIpAndPort .little "127.0.0.1".toList 0 :=
  (@(@ofIpPort_eq_iff .little "127.0.0.1".toList [127, 0, 0, 1] (by decide) 0).1.mpr rfl).2

/-- Port 8080 of it is read as port 0. -/
theorem ofIpPort_loses_port :
    inetPton "127.0.0.1".toList = some [127, 0, 0, 1] ∧
    ofIpPort .little ("127.0.0.1".toList ++ ':' :: Nat.toDigits 10 8080)
      = .ok ⟨afInet, 0, 0x0100007f⟩ ∧
    ofIpPort .little ("127.0.0.1".toList ++ ':' :: Nat.toDigits 10 8080)
      ≠ ofIpAndPort .little "127.0.0.1".toList 8080 := by
  have hone : ofIpPort .little ("127.0.0.1".toList ++ ':' :: Nat.toDigits 10 8080)
      = .ok ⟨afInet, 0, 0x0100007f⟩ := rfl
  have htwo : ofIpAndPort .little "127.0.0.1".toList 8080
      = .ok ⟨afInet, 0x901f, 0x0100007f⟩ := rfl
  refine ⟨by decide, hone, fun heq => ?_⟩
  rw [hone, htwo, Except.ok.injEq] at heq
  exact absurd heq (by decide)

end Endpoint

end Coring
