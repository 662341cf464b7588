import Crasy.Base.System
import Crasy.Types.Option

/-!
# The recorded endpoints of a UDP socket

Library `Io`. Models `src/udp.cpp:8–77`: the calls `bind_local` and `bind_remote`, each awaited to
its end, and the endpoints that `udp_socket` records beside its `sock_`. The socket of asio is not
part of this library: it is a parameter, with what its documentation promises of a call that
succeeds.
-/

namespace Crasy.Io

open Crasy.Base Crasy.Types

variable {ε : Type}

/-- `ip_address`, which wraps `asio::ip::address`; `include/crasy/ip_address.hpp:124–171`. -/
inductive IpAddress where
  | v4 (addr : BitVec 32)
  | v6 (addr : BitVec 128) (scope : UInt32)
  deriving DecidableEq, Repr

/-- `is_v4`. -/
def IpAddress.isV4 : IpAddress → Bool
  | .v4 _ => true
  | .v6 _ _ => false

/-- `endpoint`, and `asio::ip::udp::endpoint`, which is made of the same parts;
`include/crasy/endpoint.hpp:15–37`. -/
structure Endpoint where
  address : IpAddress
  port : UInt16
  deriving DecidableEq, Repr

/-- What `udp_socket` relies on of a socket of asio, whose calls answer as the system decides. One
that opens keeps what it is bound and connected to; one that `bind` binds is bound as asked, on a
port of the system's choice if port 0 was asked for; one that connects has the peer that was asked
for. What it is bound to is what `bind` has bound it to. -/
structure AsioSocket (ε : Type) where
  Sock : Type
  Answer : Type
  new : Sock
  isOpen : Sock → Bool
  bound : Sock → Option Endpoint
  peer : Sock → Option Endpoint
  openFor : Sock → Bool → Answer → Except ε Sock
  bind : Sock → Endpoint → Answer → Except ε Sock
  connect : Sock → Endpoint → Answer → Except ε Sock
  bound_new : bound new = none
  peer_new : peer new = none
  of_openFor : ∀ s v4 a s', openFor s v4 a = .ok s' → bound s' = bound s ∧ peer s' = peer s
  of_bind : ∀ s ep a s', bind s ep a = .ok s' → peer s' = peer s ∧ ∃ port, port ≠ 0 ∧
    (ep.port ≠ 0 → port = ep.port) ∧ bound s' = some { ep with port := port }
  of_connect : ∀ s ep a s', connect s ep a = .ok s' → peer s' = some ep

/-- A socket that records what it was opened for, bound to and connected to. -/
structure RecordingSocket where
  openedV4 : Option Bool
  bound : Option Endpoint
  peer : Option Endpoint
  deriving DecidableEq, Repr

/-- A port that the system chooses. -/
abbrev Chosen := {port : UInt16 // port ≠ 0}

/-- Sockets whose calls fail with a given error, or succeed and choose the given port. -/
def recordingSocket (ε : Type) : AsioSocket ε where
  Sock := RecordingSocket
  Answer := Except ε Chosen
  new := { openedV4 := none, bound := none, peer := none }
  isOpen s := s.openedV4.isSome
  bound s := s.bound
  peer s := s.peer
  openFor s v4 a := a.map fun _ ↦ { s with openedV4 := some v4 }
  bind s ep a := a.map fun chosen ↦
    { s with bound := some (if ep.port = 0 then { ep with port := chosen } else ep) }
  connect s ep a := a.map fun _ ↦ { s with peer := some ep }
  bound_new := rfl
  peer_new := rfl
  of_openFor s v4 a s' h := by
    cases a <;> cases h
    exact ⟨rfl, rfl⟩
  of_bind s ep a s' h := by
    cases a with
    | error e => cases h
    | ok chosen =>
      cases h
      by_cases hp : ep.port = 0
      · exact ⟨rfl, chosen, chosen.property, fun hne ↦ absurd hp hne, congrArg some (if_pos hp)⟩
      · exact ⟨rfl, ep.port, hp, fun _ ↦ rfl, congrArg some (if_neg hp)⟩
  of_connect s ep a s' h := by
    cases a <;> cases h
    rfl

variable {B : AsioSocket ε}

/-- `udp_socket`; `include/crasy/udp.hpp:80–82`. -/
structure UdpSocket (B : AsioSocket ε) where
  sock : B.Sock
  local_ : ValueOption Endpoint
  remote_ : ValueOption Endpoint

namespace UdpSocket

/-- `udp_socket()`; `src/udp.cpp:8`. -/
def new (B : AsioSocket ε) : UdpSocket B := { sock := B.new, local_ := .new, remote_ := .new }

/-- `sock_.open` unless it is open; `src/udp.cpp:16–21,51–60`. -/
def ensureOpen (u : UdpSocket B) (v4 : Bool) (opening : B.Answer) : Except ε (UdpSocket B) :=
  if B.isOpen u.sock then .ok u
  else (B.openFor u.sock v4 opening).map fun sock ↦ { u with sock := sock }

/-- `bind_local`, with its result; `src/udp.cpp:10–30`. -/
def bindLocal (u : UdpSocket B) (ep : Endpoint) (opening binding : B.Answer) :
    Except ε Unit × UdpSocket B :=
  match u.ensureOpen ep.address.isV4 opening with
  | .error e => (.error e, u)
  | .ok u =>
    match B.bind u.sock ep binding with
    | .error e => (.error e, u)
    | .ok sock =>
      (.ok (), { u with sock := sock, local_ := u.local_.emplace ⟨ep.address, ep.port⟩ })

/-- `bind_remote`, with its result; `src/udp.cpp:62–69`. -/
def bindRemote (u : UdpSocket B) (ep : Endpoint) (opening connecting : B.Answer) :
    Except ε Unit × UdpSocket B :=
  match u.ensureOpen ep.address.isV4 opening with
  | .error e => (.error e, u)
  | .ok u =>
    match B.connect u.sock ep connecting with
    | .error e => (.error e, u)
    | .ok sock => (.ok (), { u with sock := sock })

/-- `local_endpoint`, read through the reference that it returns; `src/udp.cpp:71–73`. -/
def localEndpoint (u : UdpSocket B) : Option Endpoint := (u.local_.mapRef fun ep ↦ ep).1.opt

/-- `remote_endpoint`, read through the reference that it returns; `src/udp.cpp:75–77`. -/
def remoteEndpoint (u : UdpSocket B) : Option Endpoint := (u.remote_.mapRef fun ep ↦ ep).1.opt

end UdpSocket

/-- A call, with the answers of the system to it. -/
inductive Act (B : AsioSocket ε) where
  | bindLocal (ep : Endpoint) (opening binding : B.Answer)
  | bindRemote (ep : Endpoint) (opening connecting : B.Answer)

/-- The result of a call, and what it leaves. -/
def UdpSocket.call (u : UdpSocket B) : Act B → Except ε Unit × UdpSocket B
  | .bindLocal ep opening binding => u.bindLocal ep opening binding
  | .bindRemote ep opening connecting => u.bindRemote ep opening connecting

/-- Any calls on a new `udp_socket`. -/
def udpSystem (B : AsioSocket ε) : System (UdpSocket B) (Act B) :=
  { init := .new B, next := fun u a ↦ some (u.call a).2 }

/-- The endpoints that `udp_socket` reports are those of its socket. -/
def Tracks (u : UdpSocket B) : Prop :=
  u.localEndpoint = B.bound u.sock ∧ u.remoteEndpoint = B.peer u.sock

/-! ### Calls -/

/-- The socket is open already, or opens. -/
def UdpSocket.Opens (u : UdpSocket B) (v4 : Bool) (opening : B.Answer) (sock : B.Sock) : Prop :=
  if B.isOpen u.sock then sock = u.sock else B.openFor u.sock v4 opening = .ok sock

/-- The socket does everything that the call asks for. -/
def Granted (u : UdpSocket B) : Act B → Prop
  | .bindLocal ep opening binding =>
    ∃ sock sock', u.Opens ep.address.isV4 opening sock ∧ B.bind sock ep binding = .ok sock'
  | .bindRemote ep opening connecting =>
    ∃ sock sock', u.Opens ep.address.isV4 opening sock ∧ B.connect sock ep connecting = .ok sock'

/-- What a call leaves when the socket denies it something. -/
structure Denied (u : UdpSocket B) (answer : Except ε Unit × UdpSocket B) : Prop where
  error : ∃ e, answer.1 = .error e
  local_ : answer.2.local_ = u.local_
  remote_ : answer.2.remote_ = u.remote_
  bound : B.bound answer.2.sock = B.bound u.sock
  peer : B.peer answer.2.sock = B.peer u.sock

namespace UdpSocket

variable {ep : Endpoint}

/-- `ensure_open` opens the socket and changes nothing else. -/
theorem ensureOpen_cases (u : UdpSocket B) (v4 : Bool) (opening : B.Answer) :
    (∃ e, u.ensureOpen v4 opening = .error e ∧ ∀ sock, ¬u.Opens v4 opening sock) ∨
      ∃ sock, u.ensureOpen v4 opening = .ok { u with sock := sock } ∧
        (∀ sock', u.Opens v4 opening sock' ↔ sock' = sock) ∧
        B.bound sock = B.bound u.sock ∧ B.peer sock = B.peer u.sock := by
  unfold ensureOpen Opens
  by_cases ho : B.isOpen u.sock = true
  · simp only [if_pos ho]
    exact .inr ⟨u.sock, rfl, fun _ ↦ Iff.rfl, rfl, rfl⟩
  · simp only [if_neg ho]
    cases hopen : B.openFor u.sock v4 opening with
    | error e => exact .inl ⟨e, rfl, by simp⟩
    | ok sock =>
      obtain ⟨hbound, hpeer⟩ := B.of_openFor _ _ _ _ hopen
      exact .inr ⟨sock, rfl, fun sock' ↦ by simp [eq_comm], hbound, hpeer⟩

/-- `bind_local` records the endpoint that was asked for. -/
theorem bindLocal_cases (u : UdpSocket B) (ep : Endpoint) (opening binding : B.Answer) :
    Denied u (u.bindLocal ep opening binding) ∧ ¬Granted u (.bindLocal ep opening binding) ∨
      Granted u (.bindLocal ep opening binding) ∧
        ∃ sock port, u.bindLocal ep opening binding =
            (.ok (), { u with sock := sock, local_ := ⟨some ep⟩ }) ∧
          port ≠ 0 ∧ (ep.port ≠ 0 → port = ep.port) ∧
          B.bound sock = some { ep with port := port } ∧ B.peer sock = B.peer u.sock := by
  unfold bindLocal
  rcases u.ensureOpen_cases ep.address.isV4 opening with ⟨e, he, hno⟩ | ⟨sock, he, ho, hb, hp⟩
  · rw [he]
    exact .inl ⟨⟨⟨e, rfl⟩, rfl, rfl, rfl, rfl⟩, fun ⟨sock, _, hg, _⟩ ↦ hno sock hg⟩
  · rw [he]
    dsimp only
    cases hbind : B.bind sock ep binding with
    | error e =>
      refine .inl ⟨⟨⟨e, rfl⟩, rfl, rfl, hb, hp⟩, ?_⟩
      rintro ⟨sock', _, hg, hok⟩
      rw [(ho sock').mp hg, hbind] at hok
      cases hok
    | ok sock' =>
      obtain ⟨hpeer, port, hzero, hport, hbound⟩ := B.of_bind _ _ _ _ hbind
      exact .inr ⟨⟨sock, sock', (ho sock).mpr rfl, hbind⟩, sock', port, rfl, hzero, hport, hbound,
        hpeer.trans hp⟩

/-- `bind_remote` records nothing. -/
theorem bindRemote_cases (u : UdpSocket B) (ep : Endpoint) (opening connecting : B.Answer) :
    Denied u (u.bindRemote ep opening connecting) ∧
        ¬Granted u (.bindRemote ep opening connecting) ∨
      Granted u (.bindRemote ep opening connecting) ∧
        ∃ sock, u.bindRemote ep opening connecting = (.ok (), { u with sock := sock }) ∧
          B.peer sock = some ep := by
  unfold bindRemote
  rcases u.ensureOpen_cases ep.address.isV4 opening with ⟨e, he, hno⟩ | ⟨sock, he, ho, hb, hp⟩
  · rw [he]
    exact .inl ⟨⟨⟨e, rfl⟩, rfl, rfl, rfl, rfl⟩, fun ⟨sock, _, hg, _⟩ ↦ hno sock hg⟩
  · rw [he]
    dsimp only
    cases hconnect : B.connect sock ep connecting with
    | error e =>
      refine .inl ⟨⟨⟨e, rfl⟩, rfl, rfl, hb, hp⟩, ?_⟩
      rintro ⟨sock', _, hg, hok⟩
      rw [(ho sock').mp hg, hconnect] at hok
      cases hok
    | ok sock' =>
      exact .inr ⟨⟨sock, sock', (ho sock).mpr rfl, hconnect⟩, sock', rfl,
        B.of_connect _ _ _ _ hconnect⟩

/-- `local_endpoint` is what is recorded. -/
theorem localEndpoint_eq (u : UdpSocket B) : u.localEndpoint = u.local_.opt := by
  obtain ⟨_, ⟨_ | ep⟩, _⟩ := u <;> rfl

/-- `remote_endpoint` is what is recorded. -/
theorem remoteEndpoint_eq (u : UdpSocket B) : u.remoteEndpoint = u.remote_.opt := by
  obtain ⟨_, _, ⟨_ | ep⟩⟩ := u <;> rfl

end UdpSocket

private theorem Denied.tracks {u : UdpSocket B} {answer : Except ε Unit × UdpSocket B}
    (h : Denied u answer) :
    answer.2.localEndpoint = u.localEndpoint ∧ answer.2.remoteEndpoint = u.remoteEndpoint ∧
      (Tracks answer.2 ↔ Tracks u) := by
  have hl : answer.2.localEndpoint = u.localEndpoint := by
    rw [UdpSocket.localEndpoint_eq, UdpSocket.localEndpoint_eq, h.local_]
  have hr : answer.2.remoteEndpoint = u.remoteEndpoint := by
    rw [UdpSocket.remoteEndpoint_eq, UdpSocket.remoteEndpoint_eq, h.remote_]
  rw [Tracks, Tracks, hl, hr, h.bound, h.peer]
  exact ⟨rfl, rfl, Iff.rfl⟩

/-- The calls whose endpoint is recorded as it should be: a `bind_local` that is granted asks for a
port of its own, and no `bind_remote` is granted. -/
def RecordedOk (u : UdpSocket B) (a : Act B) : Prop :=
  match a with
  | .bindLocal ep _ _ => Granted u a → ep.port ≠ 0
  | .bindRemote _ _ _ => ¬Granted u a

private theorem call_remote (u : UdpSocket B) (a : Act B) : (u.call a).2.remote_ = u.remote_ := by
  cases a with
  | bindLocal ep opening binding =>
    rcases u.bindLocal_cases ep opening binding with ⟨h, -⟩ | ⟨-, sock, port, h, -⟩
    · exact h.remote_
    · rw [UdpSocket.call, h]
  | bindRemote ep opening connecting =>
    rcases u.bindRemote_cases ep opening connecting with ⟨h, -⟩ | ⟨-, sock, h, -⟩
    · exact h.remote_
    · rw [UdpSocket.call, h]

/-- A recorded call keeps the reported endpoints those of the socket. -/
theorem Tracks.call {u : UdpSocket B} {a : Act B} (h : Tracks u) (hok : RecordedOk u a) :
    Tracks (u.call a).2 := by
  cases a with
  | bindLocal ep opening binding =>
    rcases u.bindLocal_cases ep opening binding with
      ⟨hd, -⟩ | ⟨hg, sock, port, hcall, -, hport, hbound, hpeer⟩
    · exact hd.tracks.2.2.mpr h
    · rw [hport (hok hg)] at hbound
      rw [UdpSocket.call, hcall, Tracks, UdpSocket.localEndpoint_eq, hbound, hpeer]
      exact ⟨rfl, h.2⟩
  | bindRemote ep opening connecting =>
    rcases u.bindRemote_cases ep opening connecting with ⟨hd, -⟩ | ⟨hg, -⟩
    · exact hd.tracks.2.2.mpr h
    · exact absurd hg hok

private theorem not_tracks_call {u : UdpSocket B} {a : Act B} (hnone : u.remote_.opt = none)
    (hbad : ¬RecordedOk u a) : ¬Tracks (u.call a).2 := by
  cases a with
  | bindLocal ep opening binding =>
    obtain ⟨hg, hport⟩ := Classical.not_imp.mp hbad
    rcases u.bindLocal_cases ep opening binding with
      ⟨-, hno⟩ | ⟨-, sock, port, hcall, hne, -, hbound, -⟩
    · exact absurd hg hno
    · have hzero : ep.port = 0 := not_not.mp hport
      intro h
      have hlocal := h.1
      rw [UdpSocket.call, hcall, UdpSocket.localEndpoint_eq, hbound] at hlocal
      -- the recorded port is the one asked for, and the socket's was chosen
      have hports : ep.port = port := congrArg Endpoint.port (Option.some.inj hlocal)
      exact hne (hports ▸ hzero)
  | bindRemote ep opening connecting =>
    rcases u.bindRemote_cases ep opening connecting with ⟨-, hno⟩ | ⟨-, sock, hcall, hpeer⟩
    · exact absurd hno hbad
    · intro h
      have hremote := h.2
      rw [UdpSocket.remoteEndpoint_eq, call_remote, hnone, UdpSocket.call, hcall, hpeer] at hremote
      cases hremote

/-- A call that returns an error leaves what is reported. -/
theorem endpoints_of_error {u : UdpSocket B} {a : Act B} {e : ε} (he : (u.call a).1 = .error e) :
    (u.call a).2.localEndpoint = u.localEndpoint ∧
      (u.call a).2.remoteEndpoint = u.remoteEndpoint := by
  cases a with
  | bindLocal ep opening binding =>
    rcases u.bindLocal_cases ep opening binding with ⟨hd, -⟩ | ⟨-, sock, port, hcall, -⟩
    · exact ⟨hd.tracks.1, hd.tracks.2.1⟩
    · rw [UdpSocket.call, hcall] at he
      cases he
  | bindRemote ep opening connecting =>
    rcases u.bindRemote_cases ep opening connecting with ⟨hd, -⟩ | ⟨-, sock, hcall, -⟩
    · exact ⟨hd.tracks.1, hd.tracks.2.1⟩
    · rw [UdpSocket.call, hcall] at he
      cases he

/-- After every call the reported endpoints are those of the socket exactly when no `bind_local`
was granted a port of the system's choice and no `bind_remote` was granted. A call that returns an
error leaves what is reported. -/
theorem endpoints_track_iff {acts : List (Act B)} {u : UdpSocket B}
    (hr : (udpSystem B).Run acts u) :
    ((∀ before t, before <+: acts → (udpSystem B).Run before t → Tracks t) ↔
      (udpSystem B).RunBy RecordedOk acts u) ∧
    ∀ (t : UdpSocket B) (a : Act B) (e : ε), (t.call a).1 = .error e →
      (t.call a).2.localEndpoint = t.localEndpoint ∧
        (t.call a).2.remoteEndpoint = t.remoteEndpoint := by
  refine ⟨?_, fun t a e he ↦ endpoints_of_error he⟩
  refine hr.passes_iff (I := fun u ↦ u.remote_.opt = none) (J := Tracks)
    ⟨rfl, B.bound_new.symm, B.peer_new.symm⟩
    (fun u a u' hnone hn ↦ ?_) (fun u a u' _ h hok hn ↦ ?_) (fun _ _ h ↦ h)
    fun u a u' hnone _ hbad hn ↦ ?_
  · cases hn
    rw [call_remote, hnone]
  · cases hn
    exact h.call hok
  · cases hn
    exact not_tracks_call hnone hbad

/-- An address on the loopback interface. -/
def loopback (port : UInt16) : Endpoint := ⟨.v4 0x7f000001, port⟩

/-- The system grants what it is asked for; for a port it would choose 81. -/
def granting : Except Nat Chosen := .ok ⟨81, by decide⟩

/-- A socket that is bound to a port of its own, and fails to connect. -/
def boundOnly : List (Act (recordingSocket Nat)) :=
  [.bindLocal (loopback 80) granting granting, .bindRemote (loopback 90) granting (.error 111)]

/-- The socket reports its port and no peer. -/
theorem endpoints_track_boundOnly : ∃ u, (udpSystem (recordingSocket Nat)).Run boundOnly u ∧
    u.localEndpoint = some (loopback 80) ∧ u.remoteEndpoint = none ∧
      ∀ before t, before <+: boundOnly → (udpSystem (recordingSocket Nat)).Run before t →
        Tracks t := by
  have hfirst : RecordedOk (UdpSocket.new (recordingSocket Nat))
      (.bindLocal (loopback 80) granting granting) := fun _ ↦ by decide
  have hsecond (u : UdpSocket (recordingSocket Nat)) :
      RecordedOk u (.bindRemote (loopback 90) granting (.error 111)) := by
    rintro ⟨_, _, _, hconnect⟩
    cases hconnect
  have hr : (udpSystem (recordingSocket Nat)).RunBy RecordedOk ([] ++ _ ++ _) _ :=
    (System.RunBy.init.step hfirst rfl).step (hsecond _) rfl
  have hall : (udpSystem (recordingSocket Nat)).Run boundOnly _ := hr.mono fun _ _ _ ↦ trivial
  exact ⟨_, hall, by decide, by decide, (endpoints_track_iff hall).1.mpr hr⟩

/-- A port of the system's choice is reported as 0, and a peer is not reported. -/
theorem endpoints_lost :
    (∃ u, (udpSystem (recordingSocket Nat)).Reachable u ∧ u.sock.bound = some (loopback 81) ∧
      u.localEndpoint = some (loopback 0)) ∧
    (∃ u, (udpSystem (recordingSocket Nat)).Reachable u ∧ u.sock.peer = some (loopback 90) ∧
      u.remoteEndpoint = none) ∧
    ¬∀ u, (udpSystem (recordingSocket Nat)).Reachable u → Tracks u := by
  have hlocal : ∃ u, (udpSystem (recordingSocket Nat)).Reachable u ∧
      u.sock.bound = some (loopback 81) ∧ u.localEndpoint = some (loopback 0) :=
    System.exists_reachable [.bindLocal (loopback 0) granting granting] (by decide)
  have hremote : ∃ u, (udpSystem (recordingSocket Nat)).Reachable u ∧
      u.sock.peer = some (loopback 90) ∧ u.remoteEndpoint = none :=
    System.exists_reachable [.bindRemote (loopback 90) granting granting] (by decide)
  refine ⟨hlocal, hremote, fun h ↦ ?_⟩
  obtain ⟨u, hr, hpeer, hnone⟩ := hremote
  have heq : u.remoteEndpoint = u.sock.peer := (h u hr).2
  rw [hpeer, hnone] at heq
  cases heq

end Crasy.Io
