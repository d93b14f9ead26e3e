import PiVision.Lib.Ascii
import PiVision.Lib.Decimal
import PiVision.Pipeline.Client

/-!
# Replies to requests for a service

The servers in C and C++ reply with all of the buffer that `inet_ntop` has written their
address into, with a NUL behind it and whatever the buffer has held before. The server in
Python replies with the address alone. The clients in C and C++ take what stands before the
first NUL; the one in Python receives 13 bytes, decodes them and splits them at a NUL, and the
one in Java decodes an array of 16 bytes and takes all of it. `ipAddressLength` is
`INET_ADDRSTRLEN`, the size of all the arrays.
-/

namespace PiVision

open Decimal Ascii

/-- An address in dotted form. -/
def dotted (a b c d : UInt8) : List UInt8 :=
  decimal a.toNat ++ [46] ++ decimal b.toNat ++ [46] ++ decimal c.toNat ++ [46] ++ decimal d.toNat

/-- The replies of the servers: the buffer of the ones in C and C++, and the text that the one
in Python sends. -/
inductive IsReply (address : List UInt8) : List UInt8 → Prop
  | ownIpAddress (rest : List UInt8) (whole : (address ++ 0 :: rest).length = ipAddressLength) :
    IsReply address (address ++ 0 :: rest)
  | host : IsReply address address

/-- The clients. -/
inductive DiscoveryClient
  | c
  | cPlusPlus
  | python
  | java
  deriving DecidableEq, Repr

/-- What a C string in these bytes is. -/
def cString (bytes : List UInt8) : List UInt8 := bytes.takeWhile (· ≠ 0)

/-- `FindService` behind its request, for what `recv` receives: `serviceFound` and
`serverAddress`. -/
def EthTermConnectService.findService (serverAddress : List UInt8)
    (reply : Option (List UInt8)) : Bool × List UInt8 :=
  match reply.map (List.take ipAddressLength) with
  -- the NUL falls behind the array for a reply of sixteen bytes
  | some (b :: bs) => (true, cString (b :: bs ++ [0]))
  | _ => (false, serverAddress)

/-- `findService` of the client in Python behind its request: `piVisServerAddress`. Bytes
that are not a text raise an exception. -/
def PythonClient.findService (piVisServerAddress : List Char) (reply : Option (List UInt8)) :
    Option (List Char) :=
  match reply with
  -- `socket.timeout`
  | none => some piVisServerAddress
  | some bytes => (decodeUtf8 (bytes.take 13)).map fun chars => chars.takeWhile (· ≠ '\x00')

/-- `findService` of the client in Java behind its request: `serviceAddress`. The datagram is
copied to the front of an array of zeros. -/
def JavaClient.findService (charset : Charset) (serviceAddress : List Char)
    (reply : Option (List UInt8)) : List Char :=
  match reply.map (List.take ipAddressLength) with
  -- `SocketTimeoutException`
  | none => serviceAddress
  | some bytes => charset.decode (bytes ++ .replicate (ipAddressLength - bytes.length) 0)

namespace DiscoveryClient

/-- The client stores the address, whatever it has stored before. -/
def Stores (charset : Charset) (address reply : List UInt8) : DiscoveryClient → Prop
  | .c => ∀ s : ClientState,
    cString (s.serviceDiscovery (some reply)).serverAddress.toList = address
  | .cPlusPlus => ∀ old, EthTermConnectService.findService old (some reply) = (true, address)
  | .python => ∀ old, PythonClient.findService old (some reply) = some (text address)
  | .java => ∀ old, JavaClient.findService charset old (some reply) = text address

/-- The client is the one in C or C++, or the one in Python with an address of at most 13
bytes, and the first 13 bytes of the reply are a text. -/
def ReadsReply (address reply : List UInt8) : DiscoveryClient → Prop
  | .c => True
  | .cPlusPlus => True
  | .python => address.length ≤ 13 ∧ (decodeUtf8 (reply.take 13)).isSome
  | .java => False

end DiscoveryClient

/-! ## The address -/

theorem length_decimal_le (n : UInt8) : (decimal n.toNat).length ≤ 3 := by
  have hbyte := n.toNat_lt
  exact (length_decimal_le_iff (by decide)).mpr (by omega)

theorem length_dotted_lt (a b c d : UInt8) : (dotted a b c d).length < ipAddressLength := by
  have ha := length_decimal_le a
  have hb := length_decimal_le b
  have hc := length_decimal_le c
  have hd := length_decimal_le d
  simp only [dotted, List.length_append, List.length_singleton, ipAddressLength]
  omega

theorem dotted_ne_nil (a b c d : UInt8) : dotted a b c d ≠ [] := by
  simp [dotted]

/-- An address is ASCII text without a NUL. -/
structure PlainText (bytes : List UInt8) : Prop where
  ascii : ∀ b ∈ bytes, b.toNat < 128
  no_nul : ∀ b ∈ bytes, b ≠ 0

theorem plainText_decimal (n : ℕ) : PlainText (decimal n) := by
  have hdigit (b : UInt8) (hb : b ∈ decimal n) := toNat_of_isDigit (isDigit_of_mem_decimal hb)
  refine ⟨fun b hb => ?_, fun b hb => ?_⟩
  · have := hdigit b hb
    omega
  · rintro rfl
    have := (hdigit 0 hb).1
    cases this

theorem plainText_dot : PlainText [46] where
  ascii := List.forall_mem_singleton.mpr (by decide)
  no_nul := List.forall_mem_singleton.mpr (by decide)

theorem PlainText.append {xs ys : List UInt8} (hxs : PlainText xs) (hys : PlainText ys) :
    PlainText (xs ++ ys) where
  ascii b hb := (List.mem_append.mp hb).elim (hxs.ascii b) (hys.ascii b)
  no_nul b hb := (List.mem_append.mp hb).elim (hxs.no_nul b) (hys.no_nul b)

theorem plainText_dotted (a b c d : UInt8) : PlainText (dotted a b c d) :=
  ((((((plainText_decimal _).append plainText_dot).append (plainText_decimal _)).append
    plainText_dot).append (plainText_decimal _)).append plainText_dot).append (plainText_decimal _)

/-! ## The clients -/

section Clients

variable {address reply : List UInt8}

theorem IsReply.length_le (sent : IsReply address reply)
    (short : address.length < ipAddressLength) : reply.length ≤ ipAddressLength := by
  cases sent with
  | ownIpAddress rest whole => exact whole.le
  | host => exact short.le

/-- In an array with zeros behind the bytes received, a NUL ends the address. -/
theorem IsReply.append_zeros (sent : IsReply address reply)
    (short : address.length < ipAddressLength) {n : ℕ}
    (room : reply.length < ipAddressLength → 0 < n) :
    ∃ more, reply ++ .replicate n 0 = address ++ 0 :: more := by
  cases sent with
  | ownIpAddress rest whole => exact ⟨rest ++ .replicate n 0, by simp⟩
  | host =>
    obtain ⟨m, rfl⟩ := Nat.exists_eq_succ_of_ne_zero (room short).ne'
    exact ⟨.replicate m 0, rfl⟩

theorem PlainText.text_ne_nul (plain : PlainText address) : ∀ c ∈ text address, c ≠ '\x00' := by
  intro c hc hnul
  obtain ⟨b, hb, rfl⟩ := List.mem_map.mp hc
  have hbyte := utf8EncodeChar_ofNat (plain.ascii b hb)
  rw [hnul] at hbyte
  exact plain.no_nul b hb (List.cons.inj hbyte).1.symm

theorem PlainText.take (plain : PlainText address) (n : ℕ) : PlainText (address.take n) where
  ascii b hb := plain.ascii b (List.mem_of_mem_take hb)
  no_nul b hb := plain.no_nul b (List.mem_of_mem_take hb)

theorem IsReply.ne_nil (sent : IsReply address reply) (nonempty : address ≠ []) : reply ≠ [] := by
  cases sent with
  | ownIpAddress rest _ => simp
  | host => exact nonempty

/-- A C string ends before the first NUL. -/
theorem PlainText.cString_append (plain : PlainText address) (more : List UInt8) :
    cString (address ++ 0 :: more) = address := by
  refine takeWhile_append_of_stop (fun b hb => ?_) fun b hb => ?_
  · exact decide_eq_true (plain.no_nul b hb)
  · cases hb
    rfl

/-- The client in C stores what stands before the first NUL. -/
theorem ClientState.cString_serviceDiscovery (plain : PlainText address)
    (short : address.length < ipAddressLength) (nonempty : address ≠ [])
    (sent : IsReply address reply) (s : ClientState) :
    cString (s.serviceDiscovery (some reply)).serverAddress.toList = address := by
  obtain ⟨b, bs, hreply⟩ := List.exists_cons_of_ne_nil (sent.ne_nil nonempty)
  obtain ⟨more, hmore⟩ := sent.append_zeros short (n := 1) fun _ => Nat.one_pos
  have hreceived : socketReceive (some reply) ipAddressLength = some (b :: bs) := by
    rw [socketReceive, Option.map_some, List.take_of_length_le (sent.length_le short), hreply]
  have hwritten : (s.serviceDiscovery (some reply)).serverAddress =
      Block.write s.serverAddress 0 (address ++ 0 :: more) := by
    rw [serviceDiscovery, hreceived, ← hmore, hreply]
    rfl
  rw [hwritten, Block.toList_write_zero, List.append_assoc, List.take_append,
    List.take_of_length_le (Nat.le_of_lt short)]
  obtain ⟨k, hk⟩ := Nat.exists_eq_succ_of_ne_zero (Nat.sub_pos_of_lt short).ne'
  have hroom : ipAddressLength - address.length = k + 1 := hk
  rw [hroom, List.cons_append, List.take_succ_cons]
  exact plain.cString_append _

/-- So does the client in C++. -/
theorem EthTermConnectService.findService_eq (plain : PlainText address)
    (short : address.length < ipAddressLength) (nonempty : address ≠ [])
    (sent : IsReply address reply) (old : List UInt8) :
    EthTermConnectService.findService old (some reply) = (true, address) := by
  obtain ⟨b, bs, hreply⟩ := List.exists_cons_of_ne_nil (sent.ne_nil nonempty)
  obtain ⟨more, hmore⟩ := sent.append_zeros short (n := 1) fun _ => Nat.one_pos
  have hreceived : (some reply).map (List.take ipAddressLength) = some (b :: bs) := by
    rw [Option.map_some, List.take_of_length_le (sent.length_le short), hreply]
  have hnul : b :: bs ++ [0] = address ++ 0 :: more := by
    rw [← hmore, hreply]
    rfl
  rw [EthTermConnectService.findService, hreceived]
  show (true, cString (b :: bs ++ [0])) = (true, address)
  rw [hnul, plain.cString_append]

/-- The client in Java stores a NUL with the address. -/
theorem JavaClient.findService_ne (charset : Charset) (plain : PlainText address)
    (short : address.length < ipAddressLength) (sent : IsReply address reply) (old : List Char) :
    JavaClient.findService charset old (some reply) ≠ text address := by
  obtain ⟨more, hmore⟩ := sent.append_zeros short (n := ipAddressLength - reply.length)
    fun h => Nat.sub_pos_of_lt h
  have hreceived : (some reply).map (List.take ipAddressLength) = some reply := by
    rw [Option.map_some, List.take_of_length_le (sent.length_le short)]
  intro hstored
  rw [JavaClient.findService, hreceived] at hstored
  simp only [hmore, charset.decode_append plain.ascii] at hstored
  rw [charset.ascii 0 more (by decide)] at hstored
  have hlength := congrArg List.length hstored
  rw [List.length_append, List.length_cons] at hlength
  omega

/-- The client in Python decodes an address of at most 13 bytes with what stands behind it,
which is cut off at the NUL. -/
theorem PythonClient.findService_of_le (plain : PlainText address) (sent : IsReply address reply)
    (whole : address.length ≤ 13) (decodes : (decodeUtf8 (reply.take 13)).isSome)
    (old : List Char) :
    PythonClient.findService old (some reply) = some (text address) := by
  obtain ⟨tail, htake, htail⟩ : ∃ tail, reply.take 13 = address ++ tail ∧
      ∀ b, tail.head? = some b → b = 0 := by
    cases sent with
    | ownIpAddress rest _ =>
      refine ⟨(0 :: rest).take (13 - address.length), ?_, fun b hb => ?_⟩
      · rw [List.take_append, List.take_of_length_le whole]
      · cases hn : 13 - address.length with
        | zero => simp [hn] at hb
        | succ n =>
          rw [hn] at hb
          cases hb
          rfl
    | host => exact ⟨[], by rw [List.append_nil, List.take_of_length_le whole], nofun⟩
  rw [htake, decodeUtf8_append plain.ascii] at decodes
  rw [PythonClient.findService, htake, decodeUtf8_append plain.ascii]
  obtain ⟨chars, hchars⟩ := Option.isSome_iff_exists.mp (by simpa using decodes)
  have hstop : ∀ c, chars.head? = some c → c = '\x00' := by
    cases tail with
    | nil =>
      rw [decodeUtf8_of_ascii (List.forall_mem_nil _)] at hchars
      cases hchars
      exact nofun
    | cons b tail =>
      obtain rfl := htail b rfl
      rw [decodeUtf8_cons (by decide)] at hchars
      obtain ⟨more, -, rfl⟩ := Option.map_eq_some_iff.mp hchars
      intro c hc
      cases hc
      rfl
  rw [hchars, Option.map_some, Option.map_some]
  refine congrArg some (takeWhile_append_of_stop (fun c hc => ?_) fun c hc => ?_)
  · exact decide_eq_true (plain.text_ne_nul c hc)
  · rw [hstop c hc]
    rfl

/-- Of a longer address it has too little. -/
theorem PythonClient.findService_of_lt (plain : PlainText address) (sent : IsReply address reply)
    (long : 13 < address.length) (old : List Char) :
    PythonClient.findService old (some reply) ≠ some (text address) := by
  have htake : reply.take 13 = address.take 13 := by
    cases sent with
    | ownIpAddress rest _ => exact List.take_append_of_le_length long.le
    | host => rfl
  rw [PythonClient.findService, htake, decodeUtf8_of_ascii (plain.take 13).ascii]
  intro hstored
  have hlength : ((text (address.take 13)).takeWhile (· ≠ '\x00')).length = (text address).length :=
    congrArg List.length (Option.some.inj hstored)
  have hle : ((text (address.take 13)).takeWhile (· ≠ '\x00')).length ≤
    (text (address.take 13)).length := (List.takeWhile_prefix _).length_le
  rw [length_text, List.length_take] at hle
  rw [length_text] at hlength
  omega

/-- **Replies decode to the address** in the clients in C and C++, in the one in Python for
the addresses of at most 13 bytes with a text in the bytes that it receives, and never in the
one in Java. -/
theorem DiscoveryClient.stores_iff_readsReply (charset : Charset) (client : DiscoveryClient)
    (a b c d : UInt8) (sent : IsReply (dotted a b c d) reply) :
    Stores charset (dotted a b c d) reply client ↔ ReadsReply (dotted a b c d) reply client := by
  have plain := plainText_dotted a b c d
  have short := length_dotted_lt a b c d
  have nonempty := dotted_ne_nil a b c d
  cases client with
  | c => exact iff_of_true (ClientState.cString_serviceDiscovery plain short nonempty sent) trivial
  | cPlusPlus =>
    exact iff_of_true (EthTermConnectService.findService_eq plain short nonempty sent) trivial
  | python =>
    constructor
    · intro stores
      have hstored := stores []
      refine ⟨Nat.le_of_not_lt fun long => ?_, ?_⟩
      · exact PythonClient.findService_of_lt plain sent long [] hstored
      · obtain ⟨chars, hchars, -⟩ := Option.map_eq_some_iff.mp hstored
        exact Option.isSome_iff_exists.mpr ⟨chars, hchars⟩
    · intro ⟨whole, decodes⟩
      exact PythonClient.findService_of_le plain sent whole decodes
  | java =>
    refine iff_of_false (fun stores => ?_) id
    exact JavaClient.findService_ne charset plain short sent [] (stores [])

/-- The client in Python and the reply of the server in Python for `10.0.0.1`. -/
theorem DiscoveryClient.stores_python :
    Stores .latin1 (dotted 10 0 0 1) (dotted 10 0 0 1) .python := by
  refine (stores_iff_readsReply .latin1 .python 10 0 0 1 .host).mpr ⟨by decide, ?_⟩
  rw [decodeUtf8_of_ascii ((plainText_dotted 10 0 0 1).take 13).ascii]
  rfl

/-- The address `192.168.100.100` loses its last two characters in the client in Python, and
`10.0.0.1` comes out of the client in Java with the rest of its array. -/
theorem DiscoveryClient.not_stores :
    (IsReply (dotted 192 168 100 100) (dotted 192 168 100 100 ++ [0]) ∧
      ¬Stores .latin1 (dotted 192 168 100 100) (dotted 192 168 100 100 ++ [0]) .python ∧
      PythonClient.findService [] (some (dotted 192 168 100 100 ++ [0])) =
        some "192.168.100.1".toList) ∧
    IsReply (dotted 10 0 0 1) (dotted 10 0 0 1) ∧
      ¬Stores .latin1 (dotted 10 0 0 1) (dotted 10 0 0 1) .java := by
  have hdecoded : PythonClient.findService [] (some (dotted 192 168 100 100 ++ [0])) =
      some "192.168.100.1".toList := by
    have htake : (dotted 192 168 100 100 ++ [0]).take 13 = (dotted 192 168 100 100).take 13 := rfl
    rw [PythonClient.findService, htake,
      decodeUtf8_of_ascii ((plainText_dotted 192 168 100 100).take 13).ascii]
    decide
  refine ⟨⟨.ownIpAddress [] (by decide), fun stores => ?_, hdecoded⟩, .host, fun stores => ?_⟩
  · have hstored := stores []
    rw [hdecoded] at hstored
    revert hstored
    decide
  · have hstored := stores []
    revert hstored
    decide

end Clients

end PiVision
