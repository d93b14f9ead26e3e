import Mathlib.Data.List.TakeWhile
import PiVision.Discovery.Replies
import PiVision.Discovery.Requests
import PiVision.Lib.IntText

/-!
# Requests at the server in Python

The server in Python decodes a datagram strictly, takes the text between the second underscore
and the third for the number of a port, less one NUL at its end, and reads it with `int`. What
is no text or no number raises an exception, which nobody catches: it leaves the handler before
the listener's socket is set up again, and the loop of the scheduler with it. What comes behind
a third underscore is not looked at, and `int` reads more than the digits that a client sends.
-/

namespace PiVision

open Ascii Decimal IntText

/-- What `__handleServiceDiscoveryRequests__` may raise for a datagram. -/
inductive PythonException
  | unicodeDecodeError
  | indexError
  | valueError
  deriving DecidableEq, Repr

/-- `PiVisServer` as far as requests go: the responses that have been sent, and how often the
socket of the service listener has been set up. -/
structure PythonServiceListener where
  portNo : ℕ
  host : List UInt8
  responses : List Datagram
  listeners : ℕ
  deriving DecidableEq, Repr

/-- What `recvfrom` returns of a datagram. -/
def Datagram.request (d : Datagram) : List UInt8 := d.bytes.take 4096

namespace PythonServiceListener

variable (unicode : Unicode)

def setUpServiceListener (s : PythonServiceListener) : PythonServiceListener :=
  { s with listeners := s.listeners + 1 }

/-- `responseSocket.sendto`. -/
def sendResponse (s : PythonServiceListener) (addr : ℕ) : PythonServiceListener :=
  { s with responses := s.responses ++ [⟨addr, s.host⟩] }

/-- `requestedPortNo` without a NUL at its end. -/
def requestedPortNo (field : List Char) : List Char :=
  if field.getLast? = some '\x00' then field.dropLast else field

/-- `__handleServiceDiscoveryRequests__`, with what `recvfrom` receives; the sockets themselves
work. -/
def handleServiceDiscoveryRequests (s : PythonServiceListener) (request : Option Datagram) :
    Except PythonException PythonServiceListener :=
  match request with
  -- `socket.timeout`
  | none => .ok s
  | some d =>
    match decodeUtf8 d.request with
    | none => .error .unicodeDecodeError
    | some reqString =>
      if text serviceDiscoveryHeader <+: reqString then
        match (reqString.splitOn '_')[2]? with
        | none => .error .indexError
        | some field =>
          match int unicode (requestedPortNo field) with
          | none => .error .valueError
          | some n =>
            if n = s.portNo then .ok (s.sendResponse d.addr).setUpServiceListener
            else .ok s.setUpServiceListener
      else .ok s.setUpServiceListener

/-- The calls that the scheduler makes of it, until one raises an exception. -/
def run (s : PythonServiceListener) (requests : List (Option Datagram)) :
    Except PythonException PythonServiceListener :=
  requests.foldlM (handleServiceDiscoveryRequests unicode) s

/-- A datagram has been handled: the server listens again, and has sent its address exactly if
the datagram is a request for its port. -/
structure Handled (s : PythonServiceListener) (d : Datagram) (s' : PythonServiceListener) :
    Prop where
  port : s'.portNo = s.portNo
  address : s'.host = s.host
  listens : s'.listeners = s.listeners + 1
  answers : IsRequest s.portNo d.request → s'.responses = s.responses ++ [⟨d.addr, s.host⟩]
  silent : ¬IsRequest s.portNo d.request → s'.responses = s.responses

/-- The handler returns, with the datagram handled. -/
def Survives (s : PythonServiceListener) (d : Datagram) : Prop :=
  ∃ s', handleServiceDiscoveryRequests unicode s (some d) = .ok s' ∧ s.Handled d s'

/-- The bytes are a text, and if it has the header, then what comes up to the next underscore is
a number for which `Admissible` holds. -/
def Readable (Admissible : ℤ → Prop) (bytes : List UInt8) : Prop :=
  ∃ chars, bytes = encodeUtf8 chars ∧ ∀ rest, chars = text serviceDiscoveryHeader ++ rest →
    ∃ n, IsNumeral unicode (requestedPortNo (rest.takeWhile (· ≠ '_'))) n ∧ Admissible n

/-! ## One datagram -/

section Handler

variable {unicode}

/-- The first part of a split text is what comes before the separator. -/
theorem head?_splitOn (separator : Char) (chars : List Char) :
    (chars.splitOn separator).head? = some (chars.takeWhile (· ≠ separator)) := by
  induction chars with
  | nil => rfl
  | cons c chars ih =>
    rw [List.splitOn_cons_eq_if_modifyHead, List.takeWhile_cons]
    by_cases hc : c = separator
    · simp [hc]
    · simp [hc, List.head?_modifyHead, ih]

/-- The text between the second underscore and the third. -/
theorem getElem?_splitOn_header (rest : List Char) :
    ((text serviceDiscoveryHeader ++ rest).splitOn '_')[2]? = some (rest.takeWhile (· ≠ '_')) := by
  have hheader : text serviceDiscoveryHeader ++ rest =
      ['W', 'H', 'E', 'R', 'E'] ++ '_' :: (['I', 'S'] ++ '_' :: rest) := rfl
  rw [hheader, List.splitOn_append_cons_self_of_not_mem (by decide),
    List.splitOn_append_cons_self_of_not_mem (by decide), ← head?_splitOn, List.head?_eq_getElem?]
  rfl

variable {s : PythonServiceListener} {d : Datagram} {chars rest : List Char}

/-- A text with another header is discarded. -/
theorem handle_of_other (encodes : d.request = encodeUtf8 chars)
    (other : ¬text serviceDiscoveryHeader <+: chars) :
    handleServiceDiscoveryRequests unicode s (some d) = .ok s.setUpServiceListener := by
  simp only [handleServiceDiscoveryRequests, decodeUtf8_eq_some_iff.mpr encodes]
  rw [if_neg other]

/-- Behind the header it is the number that counts. -/
theorem handle_of_header
    (encodes : d.request = encodeUtf8 (text serviceDiscoveryHeader ++ rest)) :
    handleServiceDiscoveryRequests unicode s (some d) =
      match int unicode (requestedPortNo (rest.takeWhile (· ≠ '_'))) with
      | none => .error .valueError
      | some n =>
        if n = s.portNo then .ok (s.sendResponse d.addr).setUpServiceListener
        else .ok s.setUpServiceListener := by
  simp only [handleServiceDiscoveryRequests, decodeUtf8_eq_some_iff.mpr encodes]
  rw [if_pos (List.prefix_append _ _), getElem?_splitOn_header]

/-- The datagrams are those that are no text, those with another header, and those with the
header. -/
theorem request_cases (d : Datagram) :
    decodeUtf8 d.request = none ∨
      (∃ chars, d.request = encodeUtf8 chars ∧ ¬text serviceDiscoveryHeader <+: chars) ∨
        ∃ rest, d.request = encodeUtf8 (text serviceDiscoveryHeader ++ rest) := by
  cases hdecode : decodeUtf8 d.request with
  | none => exact .inl rfl
  | some chars =>
    have hencodes := decodeUtf8_eq_some_iff.mp hdecode
    by_cases hheader : text serviceDiscoveryHeader <+: chars
    · obtain ⟨rest, rfl⟩ := hheader
      exact .inr (.inr ⟨rest, hencodes⟩)
    · exact .inr (.inl ⟨chars, hencodes, hheader⟩)

/-! ## Requests -/

/-- A request is the header, digits, and a NUL or nothing. -/
theorem isRequest_iff {portNo : ℕ} {message : List UInt8} :
    IsRequest portNo message ↔ ∃ tail, (tail = [] ∨ tail = [0]) ∧
      message = serviceDiscoveryHeader ++ (decimal portNo ++ tail) := by
  constructor
  · rintro (rfl | rfl)
    · exact ⟨[], .inl rfl, by rw [List.append_nil, serviceDiscoveryRequest]⟩
    · exact ⟨[0], .inr rfl, by rw [serviceDiscoveryRequest, List.append_assoc]⟩
  · rintro ⟨_, rfl | rfl, rfl⟩
    · exact .inl (by rw [List.append_nil, serviceDiscoveryRequest])
    · exact .inr (by rw [serviceDiscoveryRequest, List.append_assoc])

/-- Digits with a NUL or nothing behind them are ASCII without an underscore. -/
theorem mem_decimal_append {portNo : ℕ} {tail : List UInt8} (nul : tail = [] ∨ tail = [0])
    {b : UInt8} (mem : b ∈ decimal portNo ++ tail) : b.toNat < 95 := by
  rcases List.mem_append.mp mem with hdigit | htail
  · have := toNat_of_isDigit (isDigit_of_mem_decimal hdigit)
    omega
  · rcases nul with rfl | rfl
    · cases htail
    · rw [List.mem_singleton.mp htail]
      decide

/-- The NUL is cut off. -/
theorem requestedPortNo_decimal {portNo : ℕ} {tail : List UInt8} (nul : tail = [] ∨ tail = [0]) :
    requestedPortNo (text (decimal portNo ++ tail)) = text (decimal portNo) := by
  rcases nul with rfl | rfl
  · rw [List.append_nil, requestedPortNo, if_neg]
    intro hlast
    exact (plainText_decimal portNo).text_ne_nul _ (List.mem_of_getLast? hlast) rfl
  · have hnul : text [0] = ['\x00'] := rfl
    rw [text_append, hnul, requestedPortNo, if_pos List.getLast?_concat, List.dropLast_concat]

/-- In a request, `int` reads the number of the port. -/
theorem int_field_of_isRequest {portNo : ℕ} (request : IsRequest portNo d.request) :
    ∃ rest, d.request = encodeUtf8 (text serviceDiscoveryHeader ++ rest) ∧
      int unicode (requestedPortNo (rest.takeWhile (· ≠ '_'))) = some (portNo : ℤ) := by
  obtain ⟨tail, nul, hbytes⟩ := isRequest_iff.mp request
  have hheader : ∀ b ∈ serviceDiscoveryHeader, b.toNat < 128 := by simp [serviceDiscoveryHeader]
  refine ⟨text (decimal portNo ++ tail), ?_, ?_⟩
  · rw [hbytes, ← text_append]
    refine (encodeUtf8_text fun b hb => ?_).symm
    rcases List.mem_append.mp hb with hb | hb
    · exact hheader b hb
    · have := mem_decimal_append nul hb
      omega
  · have hfield : (text (decimal portNo ++ tail)).takeWhile (· ≠ '_') =
        text (decimal portNo ++ tail) := by
      refine List.takeWhile_eq_self_iff.mpr fun c hc => decide_eq_true ?_
      rintro rfl
      obtain ⟨b, hb, hchar⟩ := List.mem_map.mp hc
      have hlow := mem_decimal_append nul hb
      have hcode := congrArg Char.toNat hchar
      rw [toNat_ofNat (by omega)] at hcode
      exact absurd hcode hlow.ne
    rw [hfield, requestedPortNo_decimal nul, int_text_decimal]

/-! ## What is readable -/

theorem not_readable_of_none {Admissible : ℤ → Prop} (undecodable : decodeUtf8 d.request = none) :
    ¬Readable unicode Admissible d.request := by
  rintro ⟨chars, hchars, -⟩
  rw [decodeUtf8_eq_some_iff.mpr hchars] at undecodable
  cases undecodable

theorem readable_of_other {Admissible : ℤ → Prop} (encodes : d.request = encodeUtf8 chars)
    (other : ¬text serviceDiscoveryHeader <+: chars) : Readable unicode Admissible d.request :=
  ⟨chars, encodes, fun rest hrest => absurd ⟨rest, hrest.symm⟩ other⟩

theorem readable_iff_of_header {Admissible : ℤ → Prop}
    (encodes : d.request = encodeUtf8 (text serviceDiscoveryHeader ++ rest)) :
    Readable unicode Admissible d.request ↔
      ∃ n, int unicode (requestedPortNo (rest.takeWhile (· ≠ '_'))) = some n ∧ Admissible n := by
  simp only [int_eq_some_iff]
  constructor
  · rintro ⟨chars, hchars, hfield⟩
    exact hfield rest (encodeUtf8_injective (hchars.symm.trans encodes))
  · intro hfield
    refine ⟨_, encodes, fun rest' hrest => ?_⟩
    rwa [← List.append_cancel_left hrest]

/-- **One call** raises an exception for what is not readable, discards a datagram that is no
request, or answers one with the number of the port. -/
theorem handle_cases (s : PythonServiceListener) (d : Datagram) :
    (∃ e, handleServiceDiscoveryRequests unicode s (some d) = .error e ∧
      ∀ Admissible, ¬Readable unicode Admissible d.request) ∨
    (handleServiceDiscoveryRequests unicode s (some d) = .ok s.setUpServiceListener ∧
      ¬IsRequest s.portNo d.request ∧
        ∀ Admissible : ℤ → Prop, (∀ n : ℤ, n ≠ s.portNo → Admissible n) →
          Readable unicode Admissible d.request) ∨
    (handleServiceDiscoveryRequests unicode s (some d) =
        .ok (s.sendResponse d.addr).setUpServiceListener ∧
      ∀ Admissible : ℤ → Prop,
        Readable unicode Admissible d.request ↔ Admissible s.portNo) := by
  rcases request_cases d with hnone | ⟨chars, hchars, hother⟩ | ⟨rest, hrest⟩
  · refine .inl ⟨.unicodeDecodeError, ?_, fun _ => not_readable_of_none hnone⟩
    simp only [handleServiceDiscoveryRequests, hnone]
  · refine .inr (.inl ⟨handle_of_other hchars hother, fun request => ?_,
      fun _ _ => readable_of_other hchars hother⟩)
    obtain ⟨rest, hrest, -⟩ := @int_field_of_isRequest unicode _ _ request
    exact hother ⟨rest, encodeUtf8_injective (hrest.symm.trans hchars)⟩
  · rw [handle_of_header hrest]
    simp only [readable_iff_of_header hrest]
    cases hint : int unicode (requestedPortNo (rest.takeWhile (· ≠ '_'))) with
    | none => exact .inl ⟨.valueError, rfl, fun _ h => nomatch h⟩
    | some n =>
      by_cases hport : n = s.portNo
      · refine .inr (.inr ⟨if_pos hport, fun Admissible => ⟨?_, fun h => ⟨n, rfl, hport ▸ h⟩⟩⟩)
        rintro ⟨_, ⟨rfl⟩, hadmissible⟩
        rwa [← hport]
      · refine .inr (.inl ⟨if_neg hport, fun request => ?_,
          fun _ others => ⟨n, rfl, others n hport⟩⟩)
        -- in a request the number would be the port's
        obtain ⟨rest', hrest', hread⟩ := @int_field_of_isRequest unicode _ _ request
        have hsame := List.append_cancel_left (encodeUtf8_injective (hrest.symm.trans hrest'))
        rw [← hsame, hint] at hread
        exact hport (Option.some.inj hread)

/-- What a call that returns leaves is what has to be handled. -/
theorem survives_iff_of_ok {t : PythonServiceListener}
    (call : handleServiceDiscoveryRequests unicode s (some d) = .ok t) :
    Survives unicode s d ↔ s.Handled d t := by
  refine ⟨?_, fun handled => ⟨t, call, handled⟩⟩
  rintro ⟨s', hs', handled⟩
  rwa [← Except.ok.inj (hs'.symm.trans call)]

/-- **The handler survives a datagram** and handles it as it should exactly if the datagram is
readable, and only in a request stands the number of the port. -/
theorem survives_iff (s : PythonServiceListener) (d : Datagram) :
    Survives unicode s d ↔
      Readable unicode (fun n => n = s.portNo → IsRequest s.portNo d.request) d.request := by
  rcases @handle_cases unicode s d with ⟨e, hcall, hunreadable⟩ | ⟨hcall, hother, hreadable⟩ |
    ⟨hcall, hreadable⟩
  · refine iff_of_false ?_ (hunreadable _)
    rintro ⟨s', hs', -⟩
    cases hs'.symm.trans hcall
  · refine iff_of_true ((survives_iff_of_ok hcall).mpr ?_) (hreadable _ fun n hn h => absurd h hn)
    exact ⟨rfl, rfl, rfl, fun request => absurd request hother, fun _ => rfl⟩
  · rw [survives_iff_of_ok hcall, hreadable]
    constructor
    · intro handled _
      by_contra hother
      exact absurd (handled.silent hother) (by simp [sendResponse, setUpServiceListener])
    · intro request
      exact ⟨rfl, rfl, rfl, fun _ => rfl, fun hother => absurd (request rfl) hother⟩

/-! ## The scheduler's calls -/

/-- A call returns exactly for what is readable. -/
theorem handle_isOk_iff (s : PythonServiceListener) (request : Option Datagram) :
    (∃ s', handleServiceDiscoveryRequests unicode s request = .ok s') ↔
      ∀ d, request = some d → Readable unicode (fun _ => True) d.request := by
  cases request with
  | none => exact iff_of_true ⟨s, rfl⟩ nofun
  | some d =>
    have hone : (∀ d', some d = some d' → Readable unicode (fun _ => True) d'.request) ↔
        Readable unicode (fun _ => True) d.request :=
      ⟨fun h => h d rfl, fun h _ hd => Option.some.inj hd ▸ h⟩
    rw [hone]
    rcases @handle_cases unicode s d with ⟨e, hcall, hunreadable⟩ | ⟨hcall, -, hreadable⟩ |
      ⟨hcall, hreadable⟩
    · refine iff_of_false ?_ (hunreadable _)
      rintro ⟨s', hs'⟩
      cases hs'.symm.trans hcall
    · exact iff_of_true ⟨_, hcall⟩ (hreadable _ fun _ _ => trivial)
    · exact iff_of_true ⟨_, hcall⟩ ((hreadable _).mpr trivial)

theorem run_cons (s : PythonServiceListener) (request : Option Datagram)
    (requests : List (Option Datagram)) :
    run unicode s (request :: requests) =
      handleServiceDiscoveryRequests unicode s request >>= fun s' => run unicode s' requests :=
  List.foldlM_cons

/-- **The scheduler keeps running** exactly as long as every datagram is readable. -/
theorem run_isOk_iff (s : PythonServiceListener) (requests : List (Option Datagram)) :
    (∃ s', run unicode s requests = .ok s') ↔
      ∀ d, some d ∈ requests → Readable unicode (fun _ => True) d.request := by
  induction requests generalizing s with
  | nil => exact iff_of_true ⟨s, rfl⟩ nofun
  | cons request requests ih =>
    have hfirst := @handle_isOk_iff unicode s request
    rw [run_cons]
    constructor
    · rintro ⟨s', hs'⟩ d hd
      cases hcall : handleServiceDiscoveryRequests unicode s request with
      | error e =>
        rw [hcall] at hs'
        cases hs'
      | ok t =>
        rw [hcall] at hs'
        rcases List.mem_cons.mp hd with hd | hd
        · exact hfirst.mp ⟨t, hcall⟩ d hd.symm
        · exact (ih t).mp ⟨s', hs'⟩ d hd
    · intro hreadable
      obtain ⟨t, hcall⟩ := hfirst.mpr fun d hd => hreadable d (hd ▸ List.mem_cons_self)
      rw [hcall]
      exact (ih t).mpr fun d hd => hreadable d (List.mem_cons_of_mem _ hd)

/-- `WHERE_IS_abc` and a byte that is no UTF-8 raise exceptions, and `WHERE_IS_+3070` is
answered. -/
theorem not_survives :
    (handleServiceDiscoveryRequests .ascii ⟨3070, dotted 10 0 0 1, [], 1⟩
        (some ⟨0, serviceDiscoveryHeader ++ [97, 98, 99]⟩) = .error .valueError ∧
      ¬Survives .ascii ⟨3070, dotted 10 0 0 1, [], 1⟩
        ⟨0, serviceDiscoveryHeader ++ [97, 98, 99]⟩) ∧
    (handleServiceDiscoveryRequests .ascii ⟨3070, dotted 10 0 0 1, [], 1⟩ (some ⟨0, [255]⟩) =
        .error .unicodeDecodeError ∧
      ¬Survives .ascii ⟨3070, dotted 10 0 0 1, [], 1⟩ ⟨0, [255]⟩) ∧
    ¬Survives .ascii ⟨3070, dotted 10 0 0 1, [], 1⟩
      ⟨0, serviceDiscoveryHeader ++ [43, 51, 48, 55, 48]⟩ := by
  refine ⟨⟨rfl, ?_⟩, ⟨rfl, ?_⟩, ?_⟩
  · rintro ⟨s', hs', -⟩
    cases hs'
  · rintro ⟨s', hs', -⟩
    cases hs'
  · rintro ⟨s', hs', handled⟩
    cases hs'
    exact absurd (handled.silent (by unfold IsRequest; decide)) (by decide)

end Handler

end PythonServiceListener

end PiVision
