import Coring.Net.Endpoint

/-!
# Endpoints from host names

`from_resolve` of `include/coring/endpoint.hpp` asks `gethostbyname_r` for the address of a host
and takes the port as a second argument or, in the overload without one, 80.  The C library is a
parameter here: for a name it returns a code and, where there is one, the host's entry.

The port is converted to network order before it is stored.  A `uint16_t` selects the conversion of
two bytes, but the literal 80 is an `int` and selects the one of four.  `setPort` then keeps the
two lowest bytes of the result, and on a little endian host these are zero (`narrow_int`).
-/

namespace Coring

/-- What the program reads of a `hostent`; `h_length` is the number of the address's bytes. -/
structure HostEnt where
  hAddrtype : ℕ
  hAddr : List UInt8
  deriving Repr, DecidableEq

/-- What `gethostbyname_r` returns and stores. -/
structure HostLookup where
  ret : ℤ
  he : Option HostEnt
  deriving Repr, DecidableEq

/-- The assertion on the entry. -/
def HostEnt.Ipv4 (he : HostEnt) : Prop := he.hAddrtype = afInet ∧ he.hAddr.length = 4

instance (he : HostEnt) : Decidable he.Ipv4 := inferInstanceAs (Decidable (_ ∧ _))

/-- The lookup has an address that the program takes. -/
def HostLookup.Resolves (ndebug : Bool) (l : HostLookup) : Prop :=
  l.ret = 0 ∧ ∃ he, l.he = some he ∧ (ndebug = true ∨ he.Ipv4) ∧ 4 ≤ he.hAddr.length

/-- `static_cast<uint16_t>`. -/
def IntValue.narrow (v : IntValue) : BitVec 16 := BitVec.ofInt 16 v.val

namespace Endpoint

/-- `endpoint(uint16_t port)`. -/
def ofPort (host : ByteOrder) (port : BitVec 16) : Endpoint := ⟨afInet, portToNetwork host port, 0⟩

/-- `set_port`. -/
def setPort (e : Endpoint) (p : BitVec 16) : Endpoint := { e with sinPort := p }

variable (gethostbynameR : List Char → HostLookup) (ndebug : Bool) (host : ByteOrder)

/-- `resolve(hostname, out)`: its result and `*out`.  `none` where the assertion ends the program,
which it does not with `NDEBUG`, or where the entry has fewer bytes than are read. -/
def resolve (hostname : List Char) (out : Endpoint) : Option (Bool × Endpoint) :=
  let l := gethostbynameR (cString hostname)
  if l.ret = 0 then
    match l.he with
    | some he =>
      if (ndebug ∨ he.Ipv4) ∧ 4 ≤ he.hAddr.length then
        some (true, { out with sinFamily := afInet, sinAddr := wordOf 4 (he.hAddr.take 4) host })
      else none
    | none => some (false, out)
  else some (false, out)

/-- Both overloads, for the port as they store it. -/
def fromResolveWith (netPort : BitVec 16) (hostname : List Char) :
    Option (Except String Endpoint) := do
  let (ok, res) ← resolve gethostbynameR ndebug host hostname (ofPort host 0)
  if ok then return .ok (res.setPort netPort) else return .error "address resolve fails"

/-- The literal `80`. -/
def defaultPort : IntValue := ⟨⟨true, .w32⟩, 80, by decide⟩

/-- `from_resolve(hostname)`. -/
def fromResolve (hostname : List Char) : Option (Except String Endpoint) :=
  fromResolveWith gethostbynameR ndebug host (hostToNetwork host defaultPort).narrow hostname

/-- `from_resolve(hostname, port)`. -/
def fromResolvePort (hostname : List Char) (port : BitVec 16) : Option (Except String Endpoint) :=
  fromResolveWith gethostbynameR ndebug host
    (hostToNetwork host (.ofBits ⟨false, .w16⟩ port)).narrow hostname

/-! ## Where the overloads agree -/

/-- Two calls end alike: both stop the program, both throw, or both yield the same endpoint. -/
structure Agree (a b : Option (Except String Endpoint)) : Prop where
  stops : a = none ↔ b = none
  throws : (∃ error, a = some (.error error)) ↔ ∃ error, b = some (.error error)
  yields : ∀ e f, a = some (.ok e) → b = some (.ok f) →
    e.sinFamily = f.sinFamily ∧ e.sinAddr = f.sinAddr ∧ e.sinPort = f.sinPort

variable {gethostbynameR ndebug} {hostname : List Char}

lemma resolve_of_resolves (h : (gethostbynameR (cString hostname)).Resolves ndebug)
    (out : Endpoint) : ∃ addr, resolve gethostbynameR ndebug host hostname out
      = some (true, { out with sinFamily := afInet, sinAddr := addr }) := by
  obtain ⟨hret, he, hhe, hipv4, hlen⟩ := h
  refine ⟨wordOf 4 (he.hAddr.take 4) host, ?_⟩
  rw [resolve, if_pos hret, hhe]
  exact if_pos ⟨hipv4, hlen⟩

lemma resolve_of_not_resolves (h : ¬ (gethostbynameR (cString hostname)).Resolves ndebug)
    (out : Endpoint) : resolve gethostbynameR ndebug host hostname out = none ∨
      resolve gethostbynameR ndebug host hostname out = some (false, out) := by
  rw [resolve]
  by_cases hret : (gethostbynameR (cString hostname)).ret = 0
  · rw [if_pos hret]
    cases hhe : (gethostbynameR (cString hostname)).he with
    | none => exact .inr rfl
    | some he =>
      left
      exact if_neg fun htaken => h ⟨hret, he, hhe, htaken⟩
  · rw [if_neg hret]
    exact .inr rfl

/-- Two ports that are stored differently are told apart by every host that is found. -/
lemma fromResolveWith_agree_iff (p q : BitVec 16) :
    Agree (fromResolveWith gethostbynameR ndebug host p hostname)
        (fromResolveWith gethostbynameR ndebug host q hostname) ↔
      ¬ (gethostbynameR (cString hostname)).Resolves ndebug ∨ p = q := by
  by_cases hres : (gethostbynameR (cString hostname)).Resolves ndebug
  · obtain ⟨addr, haddr⟩ := resolve_of_resolves host hres (ofPort host 0)
    have hwith : ∀ r, fromResolveWith gethostbynameR ndebug host r hostname
        = some (.ok ⟨afInet, r, addr⟩) := by
      intro r
      rw [fromResolveWith, haddr]
      rfl
    rw [hwith, hwith, or_iff_right (not_not_intro hres)]
    constructor
    · intro hagree
      exact (hagree.yields _ _ rfl rfl).2.2
    · rintro rfl
      exact ⟨Iff.rfl, Iff.rfl, fun e f he hf => by cases he.symm.trans hf; exact ⟨rfl, rfl, rfl⟩⟩
  · have hsame : ∀ r, fromResolveWith gethostbynameR ndebug host r hostname
        = (resolve gethostbynameR ndebug host hostname (ofPort host 0)).map
          fun _ => .error "address resolve fails" := by
      intro r
      rw [fromResolveWith]
      obtain hnone | hfalse := resolve_of_not_resolves host hres (ofPort host 0)
      · rw [hnone]
        rfl
      · rw [hfalse]
        rfl
    rw [hsame, hsame]
    refine iff_of_true ⟨Iff.rfl, Iff.rfl, fun e f he _ => ?_⟩ (.inl hres)
    obtain ⟨_, -, herror⟩ := Option.map_eq_some_iff.mp he
    cases herror

/-- The conversion of four bytes leaves nothing of the default port. -/
lemma narrow_int : (hostToNetwork .little defaultPort).narrow = 0 := by decide

/-- **The overloads agree exactly where no host is found**: on every other one the overload without
a port has port zero. -/
theorem fromResolve_agree_iff (gethostbynameR : List Char → HostLookup) (ndebug : Bool)
    (hostname : List Char) :
    Agree (fromResolve gethostbynameR ndebug .little hostname)
        (fromResolvePort gethostbynameR ndebug .little hostname 80) ↔
      ¬ (gethostbynameR (cString hostname)).Resolves ndebug := by
  have hport : (hostToNetwork .little (.ofBits ⟨false, .w16⟩ (80 : BitVec 16))).narrow
      = 0x5000 := by decide
  rw [fromResolve, fromResolvePort, fromResolveWith_agree_iff, narrow_int, hport]
  exact or_iff_left (by decide)

/-- A big endian host converts nothing. -/
theorem fromResolve_agree_big (gethostbynameR : List Char → HostLookup) (ndebug : Bool)
    (hostname : List Char) :
    Agree (fromResolve gethostbynameR ndebug .big hostname)
      (fromResolvePort gethostbynameR ndebug .big hostname 80) := by
  have hport : (hostToNetwork .big defaultPort).narrow
      = (hostToNetwork .big (.ofBits ⟨false, .w16⟩ (80 : BitVec 16))).narrow := by decide
  rw [fromResolve, fromResolvePort, fromResolveWith_agree_iff]
  exact .inr hport

/-- A host at `127.0.0.1`. -/
def loopback : HostLookup := ⟨0, some ⟨afInet, [127, 0, 0, 1]⟩⟩

theorem fromResolve_port_zero :
    fromResolve (fun _ => loopback) false .little "localhost".toList
      = some (.ok ⟨afInet, 0, 0x0100007f⟩) ∧
    fromResolvePort (fun _ => loopback) false .little "localhost".toList 80
      = some (.ok ⟨afInet, 0x5000, 0x0100007f⟩) ∧
    ¬ Agree (fromResolve (fun _ => loopback) false .little "localhost".toList)
      (fromResolvePort (fun _ => loopback) false .little "localhost".toList 80) := by
  refine ⟨by decide, by decide, fun hagree => ?_⟩
  exact absurd (hagree.yields _ _ rfl rfl).2.2 (by decide)

end Endpoint

end Coring
