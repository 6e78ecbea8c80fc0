import OpenShmem.Comm.Connections
import OpenShmem.Comm.Levels

namespace OpenShmem

-- A connection has two ends. The serial number tells connections apart; no PE reads it.
structure Connection where
  client : Nat
  server : Nat
  serial : Nat
deriving DecidableEq, Repr

-- Where a PE stands in a round of __comm_remote_wire_client (the first three after idle)
-- or of __comm_remote_wire_server, with the command socket it holds.
inductive Stage where
  | idle
  | connected (c : Connection)
  | greeted (c : Connection)
  | named (c : Connection)
  | accepted (c : Connection)
  | acknowledged (c : Connection)
  | identified (c : Connection) (index : Nat)
deriving DecidableEq, Repr

-- Every PE runs comm_remote_wireup. A connection waits in the server's backlog from the
-- connect on, and an accept takes any one that waits. acks and ranks hold what was sent
-- and not yet read. dialed and rounds record the rounds finished by clients and servers.
structure Handshakes where
  todo : Nat → List Action
  stage : Nat → Stage
  listening : Nat → Bool
  cmdBacklog : Nat → List Connection
  dataBacklog : Nat → List Connection
  acks : Connection → Bool
  ranks : Connection → Option Nat
  socketsCmd : Nat → Nat → Option Connection
  socketsData : Nat → Nat → Option Connection
  made : Nat
  dialed : List (Connection × Connection)
  rounds : List (Nat × Nat)

inductive HandshakeEvent where
  | cmdConnect (client : Nat)
  | acceptCmd (server : Nat) (c : Connection)
  | sendAck (server : Nat)
  | receiveAck (client : Nat)
  | sendRank (client : Nat)
  | receiveRank (server : Nat)
  | dataConnect (client : Nat)
  | acceptData (server : Nat) (d : Connection)
  | close (pe : Nat)
deriving DecidableEq, Repr

def storeSocket (sockets : Nat → Nat → Option Connection) (me index : Nat) (c : Connection) : Nat → Nat → Option Connection :=
  Function.update sockets me (Function.update (sockets me) index (some c))

namespace Handshakes

def start (job : Job) : Handshakes where
  todo me := if me < job.n then wireProgram job me else []
  stage _ := .idle
  listening me := decide (me < job.n)
  cmdBacklog _ := []
  dataBacklog _ := []
  acks _ := false
  ranks _ := none
  socketsCmd _ _ := none
  socketsData _ _ := none
  made := 0
  dialed := []
  rounds := []

def cmdConnect (s : Handshakes) (a : Nat) : Option Handshakes :=
  match s.stage a,s.todo a with
  | .idle,.connect pe index :: _ =>
    -- A refused connect is tried again.
    if s.listening pe then
      let c : Connection := ⟨a,pe,s.made⟩
      some {s with
        stage := Function.update s.stage a (.connected c)
        cmdBacklog := Function.update s.cmdBacklog pe (s.cmdBacklog pe ++ [c])
        socketsCmd := storeSocket s.socketsCmd a index c
        made := s.made+1}
    else none
  | _,_ => none

def acceptCmd (s : Handshakes) (b : Nat) (c : Connection) : Option Handshakes :=
  match s.stage b,s.todo b with
  | .idle,.accept _ :: _ =>
    if c ∈ s.cmdBacklog b then
      some {s with
        stage := Function.update s.stage b (.accepted c)
        cmdBacklog := Function.update s.cmdBacklog b ((s.cmdBacklog b).erase c)}
    else none
  | _,_ => none

def sendAck (s : Handshakes) (b : Nat) : Option Handshakes :=
  match s.stage b with
  | .accepted c => some {s with
      stage := Function.update s.stage b (.acknowledged c)
      acks := Function.update s.acks c true}
  | _ => none

def receiveAck (s : Handshakes) (a : Nat) : Option Handshakes :=
  match s.stage a with
  | .connected c =>
    if s.acks c then
      some {s with
        stage := Function.update s.stage a (.greeted c)
        acks := Function.update s.acks c false}
    else none
  | _ => none

def sendRank (s : Handshakes) (a : Nat) : Option Handshakes :=
  match s.stage a with
  | .greeted c => some {s with
      stage := Function.update s.stage a (.named c)
      ranks := Function.update s.ranks c (some a)}
  | _ => none

def receiveRank (job : Job) (s : Handshakes) (b : Nat) : Option Handshakes :=
  match s.stage b with
  | .acknowledged c => do
    let pe ← s.ranks c
    let entry ← job.localityMap b pe
    some {s with
      stage := Function.update s.stage b (.identified c entry.index)
      ranks := Function.update s.ranks c none
      socketsCmd := storeSocket s.socketsCmd b entry.index c}
  | _ => none

def dataConnect (s : Handshakes) (a : Nat) : Option Handshakes :=
  match s.stage a,s.todo a with
  | .named c,.connect pe index :: rest =>
    if s.listening pe then
      let d : Connection := ⟨a,pe,s.made⟩
      some {s with
        todo := Function.update s.todo a rest
        stage := Function.update s.stage a .idle
        dataBacklog := Function.update s.dataBacklog pe (s.dataBacklog pe ++ [d])
        socketsData := storeSocket s.socketsData a index d
        made := s.made+1
        dialed := s.dialed ++ [(c,d)]}
    else none
  | _,_ => none

def acceptData (s : Handshakes) (b : Nat) (d : Connection) : Option Handshakes :=
  match s.stage b,s.todo b with
  | .identified _ index,.accept _ :: rest =>
    if d ∈ s.dataBacklog b then
      some {s with
        todo := Function.update s.todo b rest
        stage := Function.update s.stage b .idle
        dataBacklog := Function.update s.dataBacklog b ((s.dataBacklog b).erase d)
        socketsData := storeSocket s.socketsData b index d
        rounds := s.rounds ++ [(b,index)]}
    else none
  | _,_ => none

-- __comm_remote_close_servers, which also drops what still waits.
def close (s : Handshakes) (b : Nat) : Option Handshakes :=
  match s.stage b,s.todo b with
  | .idle,[] =>
    if s.listening b then
      some {s with
        listening := Function.update s.listening b false
        cmdBacklog := Function.update s.cmdBacklog b []
        dataBacklog := Function.update s.dataBacklog b []}
    else none
  | _,_ => none

def step (job : Job) (s : Handshakes) : HandshakeEvent → Option Handshakes
  | .cmdConnect a => s.cmdConnect a
  | .acceptCmd b c => s.acceptCmd b c
  | .sendAck b => s.sendAck b
  | .receiveAck a => s.receiveAck a
  | .sendRank a => s.sendRank a
  | .receiveRank b => s.receiveRank job b
  | .dataConnect a => s.dataConnect a
  | .acceptData b d => s.acceptData b d
  | .close b => s.close b

end Handshakes

def handshakes (job : Job) : Guarded.Machine Handshakes HandshakeEvent := ⟨Handshakes.step job⟩

namespace Handshakes
variable {job : Job} {s t : Handshakes} {a b : Nat} {c d : Connection}

theorem cmdConnect_iff : s.cmdConnect a = some t ↔ ∃ pe index rest, s.stage a = .idle ∧ s.todo a = .connect pe index :: rest ∧
    s.listening pe = true ∧ t = {s with
      stage := Function.update s.stage a (.connected ⟨a,pe,s.made⟩)
      cmdBacklog := Function.update s.cmdBacklog pe (s.cmdBacklog pe ++ [⟨a,pe,s.made⟩])
      socketsCmd := storeSocket s.socketsCmd a index ⟨a,pe,s.made⟩
      made := s.made+1} := by
  constructor
  · intro moved
    unfold cmdConnect at moved
    split at moved
    · rename_i pe index rest idle head
      split at moved
      · cases moved
        exact ⟨pe,index,rest,idle,head,by assumption,rfl⟩
      · cases moved
    · cases moved
  · intro ⟨pe,index,rest,idle,head,open',same⟩
    subst same
    simp only [cmdConnect,idle,head,open',if_true]

theorem acceptCmd_iff : s.acceptCmd b c = some t ↔ ∃ slot rest, s.stage b = .idle ∧ s.todo b = .accept slot :: rest ∧
    c ∈ s.cmdBacklog b ∧ t = {s with
      stage := Function.update s.stage b (.accepted c)
      cmdBacklog := Function.update s.cmdBacklog b ((s.cmdBacklog b).erase c)} := by
  constructor
  · intro moved
    unfold acceptCmd at moved
    split at moved
    · rename_i slot rest idle head
      split at moved
      · cases moved
        exact ⟨slot,rest,idle,head,by assumption,rfl⟩
      · cases moved
    · cases moved
  · intro ⟨slot,rest,idle,head,waits,same⟩
    subst same
    simp only [acceptCmd,idle,head,waits,if_true]

theorem sendAck_iff : s.sendAck b = some t ↔ ∃ c, s.stage b = .accepted c ∧ t = {s with
      stage := Function.update s.stage b (.acknowledged c)
      acks := Function.update s.acks c true} := by
  constructor
  · intro moved
    unfold sendAck at moved
    split at moved
    · rename_i c here
      cases moved
      exact ⟨c,here,rfl⟩
    · cases moved
  · intro ⟨c,here,same⟩
    subst same
    simp only [sendAck,here]

theorem receiveAck_iff : s.receiveAck a = some t ↔ ∃ c, s.stage a = .connected c ∧ s.acks c = true ∧ t = {s with
      stage := Function.update s.stage a (.greeted c)
      acks := Function.update s.acks c false} := by
  constructor
  · intro moved
    unfold receiveAck at moved
    split at moved
    · rename_i c here
      split at moved
      · cases moved
        exact ⟨c,here,by assumption,rfl⟩
      · cases moved
    · cases moved
  · intro ⟨c,here,sent,same⟩
    subst same
    simp only [receiveAck,here,sent,if_true]

theorem sendRank_iff : s.sendRank a = some t ↔ ∃ c, s.stage a = .greeted c ∧ t = {s with
      stage := Function.update s.stage a (.named c)
      ranks := Function.update s.ranks c (some a)} := by
  constructor
  · intro moved
    unfold sendRank at moved
    split at moved
    · rename_i c here
      cases moved
      exact ⟨c,here,rfl⟩
    · cases moved
  · intro ⟨c,here,same⟩
    subst same
    simp only [sendRank,here]

theorem receiveRank_iff : s.receiveRank job b = some t ↔ ∃ c pe entry, s.stage b = .acknowledged c ∧ s.ranks c = some pe ∧
    job.localityMap b pe = some entry ∧ t = {s with
      stage := Function.update s.stage b (.identified c entry.index)
      ranks := Function.update s.ranks c none
      socketsCmd := storeSocket s.socketsCmd b entry.index c} := by
  constructor
  · intro moved
    unfold receiveRank at moved
    split at moved
    · rename_i c here
      obtain ⟨pe,sent,moved⟩ := Option.bind_eq_some_iff.mp moved
      obtain ⟨entry,found,moved⟩ := Option.bind_eq_some_iff.mp moved
      cases moved
      exact ⟨c,pe,entry,here,sent,found,rfl⟩
    · cases moved
  · intro ⟨c,pe,entry,here,sent,found,same⟩
    subst same
    simp [receiveRank,here,sent,found]

theorem dataConnect_iff : s.dataConnect a = some t ↔ ∃ c pe index rest, s.stage a = .named c ∧
    s.todo a = .connect pe index :: rest ∧ s.listening pe = true ∧ t = {s with
      todo := Function.update s.todo a rest
      stage := Function.update s.stage a .idle
      dataBacklog := Function.update s.dataBacklog pe (s.dataBacklog pe ++ [⟨a,pe,s.made⟩])
      socketsData := storeSocket s.socketsData a index ⟨a,pe,s.made⟩
      made := s.made+1
      dialed := s.dialed ++ [(c,⟨a,pe,s.made⟩)]} := by
  constructor
  · intro moved
    unfold dataConnect at moved
    split at moved
    · rename_i c pe index rest here head
      split at moved
      · cases moved
        exact ⟨c,pe,index,rest,here,head,by assumption,rfl⟩
      · cases moved
    · cases moved
  · intro ⟨c,pe,index,rest,here,head,open',same⟩
    subst same
    simp only [dataConnect,here,head,open',if_true]

theorem acceptData_iff : s.acceptData b d = some t ↔ ∃ c index slot rest, s.stage b = .identified c index ∧
    s.todo b = .accept slot :: rest ∧ d ∈ s.dataBacklog b ∧ t = {s with
      todo := Function.update s.todo b rest
      stage := Function.update s.stage b .idle
      dataBacklog := Function.update s.dataBacklog b ((s.dataBacklog b).erase d)
      socketsData := storeSocket s.socketsData b index d
      rounds := s.rounds ++ [(b,index)]} := by
  constructor
  · intro moved
    unfold acceptData at moved
    split at moved
    · rename_i c index slot rest here head
      split at moved
      · cases moved
        exact ⟨c,index,slot,rest,here,head,by assumption,rfl⟩
      · cases moved
    · cases moved
  · intro ⟨c,index,slot,rest,here,head,waits,same⟩
    subst same
    simp only [acceptData,here,head,waits,if_true]

theorem close_iff : s.close b = some t ↔ s.stage b = .idle ∧ s.todo b = [] ∧ s.listening b = true ∧ t = {s with
      listening := Function.update s.listening b false
      cmdBacklog := Function.update s.cmdBacklog b []
      dataBacklog := Function.update s.dataBacklog b []} := by
  constructor
  · intro moved
    unfold close at moved
    split at moved
    · rename_i idle done
      split at moved
      · cases moved
        exact ⟨idle,done,by assumption,rfl⟩
      · cases moved
    · cases moved
  · intro ⟨idle,done,open',same⟩
    subst same
    simp only [close,idle,done,open',if_true]

end Handshakes
end OpenShmem
