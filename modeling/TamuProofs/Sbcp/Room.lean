import TamuProofs.Sbcp.Client
import TamuProofs.Sbcp.Notices

/-!
# The chat room

`Room` is the server, its clients and the messages on their way between them, in the order in which they were
sent: what a client types goes through `Client.turn`, `SEND_MSG`, the wire, `Server.step`, the constructor of the
server, the wire again and the checks of `client.c` until the others display it.  The clients take their turns, and
the server reads its descriptors, in any order.

The `log` collects the notices that the events called for.  It is no variable of any program.

* `Seen` — what a client has displayed and will display: its welcome and the notices about the others since then;
* `Said` — what a client has sent: its lines and IDLE messages in the log, and then those that are still unread;
* **`seen_run`**, **`said_run`** — both hold of every client that is online in every state of a sound run, that
  is, as long as names and their list fit, no stale length makes a client drop a message, and only the client in the
  last slot leaves;
* **`lines_run`** — so every line that a client types is displayed by each client that was there before it.
-/

namespace TamuProofs.Sbcp

open TamuProofs.Lib

/-! ### The room -/

/-- A message of a client, built in the memory `prior`. -/
def ClientOut.build (prior : Message) : ClientOut → Option Message
  | .send message => sendMsg prior message
  | .idle => some (idleClient prior)

/-- The server, the clients by the descriptors they have at the server, with the names they were started with, and
the messages on their way to the server and to the clients; what has happened so far, and since when a client is in
the room. -/
structure Room where
  server : Server
  usernames : ℕ → Bytes
  clients : ℕ → Client
  toServer : ℕ → List Message
  toClient : ℕ → List Message
  log : List Notice
  since : ℕ → ℕ

/-- What can happen: someone starts a client, a client takes a turn of its loop, the server reads a message, or finds
that a client has gone.  Messages are built in any memory (`prior` at the client; `built` at the server, for each
receiver). -/
inductive Act
  | join (fd : ℕ) (username stdin : Bytes) (now : ℤ) (prior : Message) (namelist : Bytes)
    (built : ℕ → Msg → Message)
  | turn (fd : ℕ) (now later : ℤ) (stdinReady : Bool) (prior : ClientOut → Message)
  | serve (fd : ℕ) (built : ℕ → Msg → Message)
  | leave (fd : ℕ) (built : ℕ → Msg → Message)

namespace Room

def packets (built : ℕ → Msg → Message) (out : List Out) (d : ℕ) : List Message :=
  (heardBy d out).filterMap fun m => m.build (built d m)

/-- Every message that is written could be built. -/
def allBuilt (built : ℕ → Msg → Message) (out : List Out) : Bool :=
  out.all fun
    | .test _ _ => true
    | .write fd m => (m.build (built fd.toNat m)).isSome

/-- An event at the server. -/
def react (r : Room) (e : Ev) (built : ℕ → Msg → Message) : Option Room :=
  match r.server.step e with
  | none => none
  | some (s, out) =>
    if allBuilt built out then
      some { r with
        server := s
        toClient := fun d => r.toClient d ++ packets built out d
        log := r.log ++ (r.server.due e).toList }
    else none

def turnOf (r : Room) (fd : ℕ) (now later : ℤ) (stdinReady : Bool) : Turn where
  now := now
  later := later
  stdinReady := stdinReady
  sockReady := !(r.toClient fd).isEmpty
  recvBytes := msgSize
  packet := (r.toClient fd).headD (.blank 0)

/-- A turn of the client at `fd`.  It sends what it puts out, and takes a packet if it looks at its socket. -/
def turn (r : Room) (fd : ℕ) (now later : ℤ) (stdinReady : Bool) (prior : ClientOut → Message) : Option Room :=
  let c := r.clients fd
  let c' := c.turn (r.turnOf fd now later stdinReady)
  match (c'.out.drop c.out.length).mapM fun o => o.build (prior o) with
  | none => none
  | some sent =>
    some { r with
      clients := Function.update r.clients fd c'
      toServer := Function.update r.toServer fd (r.toServer fd ++ sent)
      toClient := if c.closed ∨ stdinReady then r.toClient
        else Function.update r.toClient fd (r.toClient fd).tail }

/-- A client is started.  If it is taken in, the notice of that is the first one in the log that is not news to
it. -/
def come (r : Room) (fd : ℕ) (username stdin : Bytes) (now : ℤ) : Room :=
  { r with
    usernames := Function.update r.usernames fd username
    clients := Function.update r.clients fd (Client.start stdin now)
    toServer := Function.update r.toServer fd []
    toClient := Function.update r.toClient fd []
    since := Function.update r.since fd (r.log.length + 1) }

/-- The server has read a message of `fd`, and these are still to be read. -/
def read (r : Room) (fd : ℕ) (ms : List Message) : Room :=
  { r with toServer := Function.update r.toServer fd ms }

/-- One act; what cannot happen changes nothing. -/
def step (r : Room) : Act → Option Room
  | .join fd username stdin now prior namelist built =>
    match joinChat prior username with
    | none => none
    | some m =>
      if fd ∈ r.server.opened then some r
      else (r.come fd username stdin now).react (.connect fd m.toBytes namelist) built
  | .turn fd now later stdinReady prior => r.turn fd now later stdinReady prior
  | .serve fd built =>
    match r.toServer fd with
    | [] => some r
    | m :: ms =>
      if r.server.Online fd then (r.read fd ms).react (.read fd m.toBytes) built else some r
  | .leave fd built =>
    if r.server.Online fd ∧ r.toServer fd = [] then r.react (.hangup fd) built else some r

def start (mem : Mem) (maxClnt srvrFd : ℕ) : Room where
  server := Server.start mem maxClnt srvrFd
  usernames := fun _ => []
  clients := fun _ => { Client.start [] 0 with closed := true }
  toServer := fun _ => []
  toClient := fun _ => []
  log := []
  since := fun _ => 0

/-- The `Length` in the memory that messages are built in is at most the size of a message. -/
def Short (built : ℕ → Msg → Message) : Prop := ∀ d m, (built d m).length.toInt ≤ msgSize

/-- The acts that the room is made for: a name fits its slot and the list of names its buffer, no stale `Length` is
too large, and a client that leaves has the last slot. -/
def Sound (r : Room) : Act → Prop
  | .join fd username _ _ prior namelist built =>
    username.length < payloadSize ∧ Room.Short built ∧
      ∀ m, joinChat prior username = some m → Allowed r.server (.connect fd m.toBytes namelist)
  | .turn _ _ _ _ _ => True
  | .serve _ built => Room.Short built
  | .leave fd built => Room.Short built ∧ Allowed r.server (.hangup fd)

/-! ### What should hold -/

/-- What a client has sent, as the server reads it. -/
def cut : ClientOut → ClientOut
  | .send message => .send (cstr message)
  | .idle => .idle

/-- What a notice says that a client has sent. -/
def typed (d : ℕ) (n : Notice) : Option ClientOut :=
  if n.about = d then some (n.text.elim .idle .send) else none

/-- The notices since `d` came in. -/
def news (r : Room) (d : ℕ) : List Notice := r.log.drop (r.since d)

/-- **What a client has displayed, with what is on its way to it**: the welcome, and then the notices about the
others since then, each once and in the order of the log. -/
def Seen (r : Room) (d : ℕ) : Prop :=
  ∃ count names, (r.clients d).shown ++ (r.toClient d).filterMap (clientShow msgSize) =
    .ack count names :: ((r.news d).filter (·.about ≠ d)).filterMap Notice.line

/-- A message on its way to the server. -/
structure Arrives (m : Message) (o : ClientOut) : Prop where
  nul : 0 ∈ m.toBytes.drop 8
  idle : o = .idle → msgType m.toBytes = IDLE
  text : ∀ text, o = .send text →
    msgType m.toBytes ≠ IDLE ∧ payload m.toBytes = text ∧ text.length < 512

/-- **What a client has sent**: its lines and IDLE messages in the log since it came in, under the name it was started
with, and those that are on their way to the server. -/
def Said (r : Room) (d : ℕ) : Prop :=
  r.server.joinedAs d = cstr (r.usernames d) ∧ (∀ n ∈ r.news d, n.about = d → n.name = cstr (r.usernames d)) ∧
    ∃ unread, (r.clients d).out.map cut = (r.news d).filterMap (typed d) ++ unread ∧
      List.Forall₂ Arrives (r.toServer d) unread

end Room

/-! ### A turn of a client -/

section Turn

theorem length_fgetsLoop_le (n : ℕ) (stdin : Bytes) : (fgetsLoop n stdin).1.length ≤ n := by
  induction n generalizing stdin with
  | zero => exact le_rfl
  | succ n ih =>
    cases stdin with
    | nil => exact Nat.zero_le _
    | cons c stdin =>
      rw [fgetsLoop]
      split
      · exact Nat.succ_le_succ (Nat.zero_le _)
      · exact Nat.succ_le_succ (ih stdin)

theorem length_fgets {n : ℕ} {stdin line rest : Bytes} {eof : Bool} (h : fgets n stdin = some (line, rest, eof)) :
    line.length ≤ n - 1 := by
  have hle := length_fgetsLoop_le (n - 1) stdin
  unfold fgets at h
  split at h
  · cases h
  · rename_i hloop
    rw [hloop] at hle
    cases h
    exact hle

def ClientOut.Fits : ClientOut → Prop
  | .send message => message.length < payloadSize
  | .idle => True

variable {c : Client} {t : Turn}

theorem idleCheck_out (c : Client) (now : ℤ) :
    ((c.idleCheck now).out = c.out ∨ (c.idleCheck now).out = c.out ++ [.idle]) ∧
      (c.idleCheck now).shown = c.shown := by
  unfold Client.idleCheck
  split
  · exact ⟨.inr rfl, rfl⟩
  · exact ⟨.inl rfl, rfl⟩

theorem readStdin_out (c : Client) (later : ℤ) : (∃ new, (c.readStdin later).out = c.out ++ new ∧
    ∀ o ∈ new, o.Fits) ∧ (c.readStdin later).shown = c.shown := by
  unfold Client.readStdin
  cases hline : fgets (maxchar - 1) c.stdin with
  | none => exact ⟨⟨[], (List.append_nil _).symm, by simp⟩, rfl⟩
  | some r =>
    obtain ⟨line, rest, eof⟩ := r
    dsimp only
    split
    · exact ⟨⟨[], (List.append_nil _).symm, by simp⟩, rfl⟩
    · refine ⟨⟨[.send line], rfl, fun o ho => ?_⟩, rfl⟩
      rw [List.mem_singleton.1 ho]
      have hlen : line.length ≤ 510 := length_fgets hline
      exact Nat.lt_of_le_of_lt hlen (by decide)

theorem readSocket_out (c : Client) {recvBytes : ℤ} (hpos : 0 < recvBytes) (packet : Message) :
    (c.readSocket recvBytes packet).out = c.out ∧
      (c.readSocket recvBytes packet).shown = c.shown ++ (clientShow recvBytes packet).toList := by
  unfold Client.readSocket
  rw [if_neg (not_le.2 hpos)]
  cases hshow : clientShow recvBytes packet with
  | none => exact ⟨rfl, (List.append_nil _).symm⟩
  | some line => cases line <;> exact ⟨rfl, rfl⟩

/-- **What a turn sends**: lines and IDLE messages that fit. -/
theorem turn_out (c : Client) (t : Turn) (hpos : 0 < t.recvBytes) :
    ∃ new, (c.turn t).out = c.out ++ new ∧ ∀ o ∈ new, o.Fits := by
  obtain ⟨hidle, -⟩ := idleCheck_out c t.now
  have hcheck : ∃ new, (c.idleCheck t.now).out = c.out ++ new ∧ ∀ o ∈ new, o.Fits := by
    rcases hidle with h | h
    · exact ⟨[], by rw [h, List.append_nil], by simp⟩
    · refine ⟨[.idle], h, fun o ho => ?_⟩
      rw [List.mem_singleton.1 ho]
      trivial
  obtain ⟨new, hnew, hfits⟩ := hcheck
  unfold Client.turn
  split
  · exact ⟨[], (List.append_nil _).symm, by simp⟩
  split
  · obtain ⟨⟨new', hnew', hfits'⟩, -⟩ := readStdin_out (c.idleCheck t.now) t.later
    refine ⟨new ++ new', by rw [hnew', hnew, List.append_assoc], ?_⟩
    rw [List.forall_mem_append]
    exact ⟨hfits, hfits'⟩
  split
  · exact ⟨new, by rw [(readSocket_out _ hpos _).1, hnew], hfits⟩
  · exact ⟨new, hnew, hfits⟩

/-- **What a turn displays.** -/
theorem turn_shown (c : Client) (t : Turn) (hpos : 0 < t.recvBytes) : (c.turn t).shown =
    c.shown ++ if c.closed = false ∧ t.stdinReady = false ∧ t.sockReady = true then
      (clientShow t.recvBytes t.packet).toList else [] := by
  obtain ⟨-, hshown⟩ := idleCheck_out c t.now
  unfold Client.turn
  by_cases hclosed : c.closed = true
  · rw [if_pos hclosed, if_neg (by simp [hclosed]), List.append_nil]
  rw [if_neg hclosed]
  by_cases hstdin : t.stdinReady = true
  · rw [if_pos hstdin, (readStdin_out _ _).2, hshown, if_neg (by simp [hstdin]), List.append_nil]
  rw [if_neg hstdin]
  by_cases hsock : t.sockReady = true
  · rw [if_pos hsock, (readSocket_out _ hpos _).2, hshown, if_pos]
    exact ⟨by simpa using hclosed, by simpa using hstdin, hsock⟩
  · rw [if_neg hsock, hshown, if_neg (by simp [hsock]), List.append_nil]

end Turn

namespace Room

/-! ### Messages on their way to the server -/

theorem drop_toBytes (m : Message) : m.toBytes.drop 8 = m.attr0.payload ++ m.attr1.toBytes := by
  simp [Message.toBytes, Attr.toBytes, shortBytes]

theorem payload_of_strcpy {a b : Attr} {text : Bytes} (h : a.strcpy text = some b) :
    (cstr text).length < payloadSize ∧ ∃ rest, b.payload = cstr text ++ 0 :: rest := by
  unfold Attr.strcpy at h
  split at h
  · rename_i hfit
    cases h
    refine ⟨hfit, a.payload.drop (cstr text ++ [0]).length, ?_⟩
    show blit a.payload 0 (cstr text ++ [0]) = _
    rw [blit_zero, List.append_assoc, List.singleton_append]
  · cases h

theorem arrives_send {prior m : Message} {text : Bytes} (h : sendMsg prior text = some m) :
    Arrives m (cut (.send text)) := by
  unfold sendMsg clientMessage at h
  obtain ⟨a, ha, hm⟩ := Option.map_eq_some_iff.1 h
  obtain ⟨hfit, rest, hrest⟩ := payload_of_strcpy ha
  have hpayload : m.attr0.payload = a.payload := by rw [← hm]
  have htype : m.type = SEND := by rw [← hm]; rfl
  have hdrop : m.toBytes.drop 8 = cstr text ++ 0 :: (rest ++ m.attr1.toBytes) := by
    rw [drop_toBytes, hpayload, hrest, List.append_assoc, List.cons_append]
  refine ⟨?_, (fun hidle => by cases hidle), fun t ht => ?_⟩
  · rw [hdrop]
    simp
  · cases ht
    refine ⟨?_, ?_, hfit⟩
    · show m.type ≠ IDLE
      rw [htype]
      decide
    · rw [payload, hdrop, cstr_cstr_append]

theorem nameIn_joinChat (s : Server) {prior m : Message} {username : Bytes} (h : joinChat prior username = some m) :
    s.nameIn m.toBytes = cstr username := by
  unfold joinChat clientMessage at h
  obtain ⟨a, ha, hm⟩ := Option.map_eq_some_iff.1 h
  obtain ⟨-, rest, hrest⟩ := payload_of_strcpy ha
  have hpayload : m.attr0.payload = a.payload := by rw [← hm]
  have hdrop : m.toBytes.drop 8 = cstr username ++ 0 :: (rest ++ m.attr1.toBytes) := by
    rw [drop_toBytes, hpayload, hrest, List.append_assoc, List.cons_append]
  have hnul : 0 ∈ m.toBytes.drop 8 := by
    rw [hdrop]
    simp
  rw [Server.nameIn, payload_readInto m.length_toBytes hnul, payload, hdrop, cstr_cstr_append]

theorem arrives_idle (prior : Message) : Arrives (idleClient prior) (cut .idle) := by
  refine ⟨?_, fun _ => rfl, fun t ht => by cases ht⟩
  rw [drop_toBytes]
  exact List.mem_append_left _ (List.mem_cons_self)

theorem build_arrives {o : ClientOut} (h : o.Fits) (prior : Message) :
    ∃ m, o.build prior = some m ∧ Arrives m (cut o) := by
  cases o with
  | send text =>
    obtain ⟨a, ha, -⟩ := strcpy_spec (clientHeader prior SEND).attr0 h
    have hsome : (sendMsg prior text).isSome := by
      unfold sendMsg clientMessage
      rw [Option.isSome_map, ha]
      rfl
    obtain ⟨m, hm⟩ := Option.isSome_iff_exists.1 hsome
    exact ⟨m, hm, arrives_send hm⟩
  | idle => exact ⟨_, rfl, arrives_idle prior⟩

theorem mapM_build {new : List ClientOut} (h : ∀ o ∈ new, o.Fits) (prior : ClientOut → Message) :
    ∃ sent, (new.mapM fun o => o.build (prior o)) = some sent ∧ List.Forall₂ Arrives sent (new.map cut) := by
  induction new with
  | nil => exact ⟨[], rfl, .nil⟩
  | cons o new ih =>
    obtain ⟨m, hm, harrives⟩ := build_arrives (h o List.mem_cons_self) (prior o)
    obtain ⟨sent, hsent, hall⟩ := ih fun o' ho' => h o' (List.mem_cons_of_mem _ ho')
    refine ⟨m :: sent, ?_, .cons harrives hall⟩
    rw [List.mapM_cons, hm, hsent]
    rfl

/-! ### What the server sends -/

section React

variable {r : Room} {e : Ev} {s' : Server} {out : List Out} {built : ℕ → Msg → Message} {d : ℕ}

theorem allBuilt_of_fits (h : ∀ fd m, .write fd m ∈ out → m.Fits) : allBuilt built out = true := by
  unfold allBuilt
  rw [List.all_eq_true]
  intro o ho
  cases o with
  | test fd init => rfl
  | write fd m =>
    obtain ⟨packet, hpacket⟩ := (h fd m ho).build (built fd.toNat m)
    show (m.build (built fd.toNat m)).isSome = true
    rw [hpacket]
    rfl

theorem react_eq (h : Reacts r.server e s' out) : r.react e built = some { r with
    server := s'
    toClient := fun d => r.toClient d ++ packets built out d
    log := r.log ++ (r.server.due e).toList } := by
  unfold react
  rw [h.step]
  exact if_pos (allBuilt_of_fits h.fits)

/-- What a client displays of a message and the filler behind it. -/
theorem show_pair (hb : Room.Short built) {m : Msg} (hm : m.Fits) {line : Option Line}
    (hshow : ∀ packet, m.build (built d m) = some packet → clientShow msgSize packet = line)
    (hheard : heardBy d out = [m, nullchar]) :
    (packets built out d).filterMap (clientShow msgSize) = line.toList := by
  obtain ⟨packet, hpacket⟩ := hm.build (built d m)
  obtain ⟨filler, hfiller⟩ := fits_nullchar.build (built d nullchar)
  have hline := hshow packet hpacket
  have hnone := show_nullchar (hb d nullchar) hfiller
  unfold packets
  rw [hheard]
  cases line <;> simp [hpacket, hfiller, hline, hnone]

/-- **A client that is online displays the notices about the others.** -/
theorem show_packets (h : Reacts r.server e s' out) (hb : Room.Short built) (hd : r.server.Online d) :
    (packets built out d).filterMap (clientShow msgSize) =
      ((r.server.due e).toList.filter (·.about ≠ d)).filterMap Notice.line := by
  have hheard := h.heard d hd
  cases hdue : r.server.due e with
  | none =>
    rw [hdue] at hheard
    unfold packets
    rw [hheard]
    rfl
  | some n =>
    rw [hdue, newsFor] at hheard
    by_cases hn : n.about = d
    · rw [if_pos hn] at hheard
      unfold packets
      rw [hheard]
      simp [hn]
    · rw [if_neg hn] at hheard
      have hproper := h.proper n hdue
      rw [show_pair hb hproper.fits (fun packet hp => hproper.show_eq (hb d n.msg) hp) hheard]
      cases hline : n.line <;> simp [hn, hline]

theorem show_welcome (hb : Room.Short built) {m : Msg} (hm : Welcome m) (hheard : heardBy d out = [m, nullchar]) :
    ∃ count names, (packets built out d).filterMap (clientShow msgSize) = [.ack count names] := by
  obtain ⟨count, names, rfl, hcount, hcountlen, hnames, hnameslen, hna⟩ := hm.ack
  have hshow : ∀ packet, (sbcpMessage ACK count names).build (built d (sbcpMessage ACK count names)) = some packet →
      clientShow msgSize packet = some (.ack count names) := by
    intro packet hp
    rw [clientShow_build .ack hcount hcountlen hnames hnameslen (hb d (sbcpMessage ACK count names)) hp,
      if_pos fun _ => hna]
    rfl
  exact ⟨count, names, show_pair hb (fits_sbcpMessage .ack hcountlen hnameslen) hshow hheard⟩

end React

/-! ### The invariant -/

/-- What holds in every state of a sound run. -/
structure Inv (maxClnt : ℕ) (r : Room) : Prop where
  orderly : Orderly r.server
  limit : r.server.maxClnt = maxClnt
  proper : ∀ n ∈ r.log, n.Proper
  since : ∀ d, r.server.Online d → r.since d ≤ r.log.length
  seen : ∀ d, r.server.Online d → r.Seen d
  said : ∀ d, r.server.Online d → r.Said d

theorem inv_start {mem : Mem} (hmem : mem.Stale) {maxClnt : ℕ} (hmax : maxClnt < 2 ^ 31) (srvrFd : ℕ) :
    (start mem maxClnt srvrFd).Inv maxClnt := by
  have hnobody : ∀ d, ¬ (start mem maxClnt srvrFd).server.Online d := fun d hd =>
    hd.2.1 (Finset.mem_singleton.1 hd.1)
  exact ⟨orderly_start hmem hmax srvrFd, rfl, (fun n hn => by cases hn), fun d hd => absurd hd (hnobody d),
    fun d hd => absurd hd (hnobody d), fun d hd => absurd hd (hnobody d)⟩

section Steps

variable {r : Room} {e : Ev} {s' : Server} {out : List Out} {built : ℕ → Msg → Message} {d fd maxClnt : ℕ}

/-- The room after an event. -/
def after (r : Room) (e : Ev) (s' : Server) (out : List Out) (built : ℕ → Msg → Message) : Room :=
  { r with
    server := s'
    toClient := fun d => r.toClient d ++ packets built out d
    log := r.log ++ (r.server.due e).toList }

theorem news_after (hs : r.since d ≤ r.log.length) :
    (r.after e s' out built).news d = r.news d ++ (r.server.due e).toList := List.drop_append_of_le_length hs

theorem proper_after (hr : Reacts r.server e s' out) (h : ∀ n ∈ r.log, n.Proper) :
    ∀ n ∈ (r.after e s' out built).log, n.Proper := by
  intro n hn
  have hn' : n ∈ r.log ++ (r.server.due e).toList := hn
  rw [List.mem_append, Option.mem_toList] at hn'
  exact hn'.elim (h n) (hr.proper n)

theorem Seen.after (h : r.Seen d) (hs : r.since d ≤ r.log.length) (hr : Reacts r.server e s' out)
    (hb : Room.Short built) (hd : r.server.Online d) : (r.after e s' out built).Seen d := by
  obtain ⟨count, names, hshown⟩ := h
  refine ⟨count, names, ?_⟩
  rw [news_after hs, List.filter_append, List.filterMap_append, ← show_packets hr hb hd, ← List.cons_append, ← hshown,
    List.append_assoc]
  show (r.clients d).shown ++ (r.toClient d ++ packets built out d).filterMap (clientShow msgSize) = _
  rw [List.filterMap_append]

theorem Said.after (h : r.Said d) (hs : r.since d ≤ r.log.length) (hr : Reacts r.server e s' out)
    (hd : r.server.Online d) (hd' : s'.Online d) (hn : ∀ n ∈ r.server.due e, n.about ≠ d) :
    (r.after e s' out built).Said d := by
  obtain ⟨hjoin, hname, unread, hout, hall⟩ := h
  have hnone : (r.server.due e).toList.filterMap (typed d) = [] := by
    refine List.filterMap_eq_nil_iff.2 fun n hmem => ?_
    rw [Option.mem_toList] at hmem
    exact if_neg (hn n hmem)
  refine ⟨(hr.stays d hd' hd).trans hjoin, fun n hmem habout => ?_, unread, ?_, hall⟩
  · rw [news_after hs, List.mem_append, Option.mem_toList] at hmem
    rcases hmem with hmem | hmem
    · exact hname n hmem habout
    · exact absurd habout (hn n hmem)
  · rw [news_after hs, List.filterMap_append, hnone, List.append_nil]
    exact hout

theorem Seen.come (h : r.Seen d) (hne : d ≠ fd) (username stdin : Bytes) (now : ℤ) :
    (r.come fd username stdin now).Seen d := by
  simpa only [Seen, news, Room.come, Function.update_of_ne hne] using h

theorem Said.come (h : r.Said d) (hne : d ≠ fd) (username stdin : Bytes) (now : ℤ) :
    (r.come fd username stdin now).Said d := by
  simpa only [Said, news, Room.come, Function.update_of_ne hne] using h

theorem since_come_self (r : Room) (fd : ℕ) (username stdin : Bytes) (now : ℤ) :
    (r.come fd username stdin now).since fd = r.log.length + 1 := Function.update_self _ _ _

theorem since_come_ne (hne : d ≠ fd) (username stdin : Bytes) (now : ℤ) :
    (r.come fd username stdin now).since d = r.since d :=
  Function.update_of_ne hne _ _

theorem welcomed (hb : Room.Short built) {username : Bytes} (stdin : Bytes) (now : ℤ) {n : Notice} {m : Msg}
    (hdue : r.server.due e = some n) (hm : Welcome m) (hheard : heardBy fd out = [m, nullchar])
    (hname : s'.joinedAs fd = cstr username) :
    ((r.come fd username stdin now).after e s' out built).Seen fd ∧
      ((r.come fd username stdin now).after e s' out built).Said fd := by
  have hnews : ((r.come fd username stdin now).after e s' out built).news fd = [] := by
    show (r.log ++ (r.server.due e).toList).drop ((r.come fd username stdin now).since fd) = []
    rw [since_come_self, hdue, List.drop_eq_nil_iff, List.length_append]
    exact le_rfl
  have hclient : (r.come fd username stdin now).clients fd = Client.start stdin now := Function.update_self _ _ _
  have hserver : (r.come fd username stdin now).toServer fd = [] := Function.update_self _ _ _
  have hqueue : (r.come fd username stdin now).toClient fd = [] := Function.update_self _ _ _
  constructor
  · obtain ⟨count, names, hshow⟩ := show_welcome hb hm hheard
    refine ⟨count, names, ?_⟩
    rw [hnews]
    show ((r.come fd username stdin now).clients fd).shown ++
      ((r.come fd username stdin now).toClient fd ++ packets built out fd).filterMap (clientShow msgSize) = _
    rw [hclient, hqueue, List.nil_append, hshow]
    rfl
  · have huser : (r.come fd username stdin now).usernames fd = username := Function.update_self _ _ _
    refine ⟨hname.trans (congrArg cstr huser.symm), ?_, [], ?_, ?_⟩
    · rw [hnews]
      simp
    · rw [hnews]
      show ((r.come fd username stdin now).clients fd).out.map cut = _
      rw [hclient]
      rfl
    · show List.Forall₂ Arrives ((r.come fd username stdin now).toServer fd) []
      rw [hserver]
      exact .nil

theorem Inv.join (h : r.Inv maxClnt) {username stdin namelist : Bytes} {now : ℤ} {prior : Message}
    (ha : r.Sound (.join fd username stdin now prior namelist built)) :
    ∃ r', r.step (.join fd username stdin now prior namelist built) = some r' ∧ r'.Inv maxClnt := by
  obtain ⟨hlen, hb, hallowed⟩ := ha
  have hsome : (joinChat prior username).isSome := by
    obtain ⟨a, hcopy, -⟩ := strcpy_spec (clientHeader prior JOIN).attr0 hlen
    unfold joinChat clientMessage
    rw [Option.isSome_map, hcopy]
    rfl
  obtain ⟨m, hm⟩ := Option.isSome_iff_exists.1 hsome
  have hstep : r.step (.join fd username stdin now prior namelist built) =
      if fd ∈ r.server.opened then some r
      else (r.come fd username stdin now).react (.connect fd m.toBytes namelist) built := by
    rw [step, hm]
  rw [hstep]
  by_cases hopen : fd ∈ r.server.opened
  · exact ⟨r, if_pos hopen, h⟩
  rw [if_neg hopen]
  -- the descriptor of a new connection is not in the set that `select` watches
  have hmem := h.orderly.inv.notMem_master hopen
  obtain ⟨s', out, hr⟩ := h.orderly.reacts (hallowed m hm) (e := .connect fd m.toBytes namelist) trivial
    (fun fd' bytes' nl' he => by cases he; exact hopen)
    (fun i hi => by rcases hi with ⟨_, hi⟩ | hi | hi <;> cases hi)
  -- whoever is online now was so before, or has just come in
  have hon : ∀ d, s'.Online d → d = fd ∨ d ≠ fd ∧ r.server.Online d := by
    intro d hd
    by_cases hd' : r.server.Online d
    · exact .inr ⟨fun he => hmem (he ▸ hd'.1), hd'⟩
    · obtain ⟨bytes, nl, -, -, he, -⟩ := hr.joins d hd hd'
      cases he
      exact .inl rfl
  -- the one that came in has its welcome, under the name it gave
  have hfd : s'.Online fd → ∃ m' n, r.server.due (.connect fd m.toBytes namelist) = some n ∧ Welcome m' ∧
      heardBy fd out = [m', nullchar] ∧ s'.joinedAs fd = cstr username := by
    intro hd
    obtain ⟨bytes, nl, m', n, he, hdue, -, hname, hm', hheard⟩ := hr.joins fd hd fun hon => hmem hon.1
    cases he
    exact ⟨m', n, hdue, hm', hheard, hname.trans (nameIn_joinChat r.server hm)⟩
  have hlog : ((r.come fd username stdin now).after (.connect fd m.toBytes namelist) s' out built).log =
      r.log ++ (r.server.due (.connect fd m.toBytes namelist)).toList := rfl
  refine ⟨(r.come fd username stdin now).after (.connect fd m.toBytes namelist) s' out built, react_eq hr, hr.orderly,
    hr.limit.trans h.limit, proper_after hr h.proper, ?_, ?_,
    ?_⟩
  · intro d hd
    show (r.come fd username stdin now).since d ≤ _
    rw [hlog, List.length_append]
    rcases hon d hd with rfl | ⟨hne, hd'⟩
    · obtain ⟨m', n, hdue, -, -⟩ := hfd hd
      rw [since_come_self, hdue]
      exact le_rfl
    · rw [since_come_ne hne]
      exact (h.since d hd').trans (Nat.le_add_right _ _)
  · intro d hd
    rcases hon d hd with rfl | ⟨hne, hd'⟩
    · obtain ⟨m', n, hdue, hm', hheard, hname⟩ := hfd hd
      exact (welcomed hb stdin now hdue hm' hheard hname).1
    · refine ((h.seen d hd').come hne username stdin now).after ?_ hr hb hd'
      rw [since_come_ne hne]
      exact h.since d hd'
  · intro d hd
    rcases hon d hd with rfl | ⟨hne, hd'⟩
    · obtain ⟨m', n, hdue, hm', hheard, hname⟩ := hfd hd
      exact (welcomed hb stdin now hdue hm' hheard hname).2
    · refine ((h.said d hd').come hne username stdin now).after ?_ hr hd' hd fun n hn => ?_
      · rw [since_come_ne hne]
        exact h.since d hd'
      · have hn' : r.server.due (.connect fd m.toBytes namelist) = some n := hn
        rw [Server.due] at hn'
        split at hn'
        · cases hn'
          exact hne.symm
        · cases hn'

theorem Inv.leave (h : r.Inv maxClnt) (ha : r.Sound (.leave fd built)) :
    ∃ r', r.step (.leave fd built) = some r' ∧ r'.Inv maxClnt := by
  obtain ⟨hb, hallowed⟩ := ha
  unfold step
  by_cases hfd : r.server.Online fd ∧ r.toServer fd = []
  -- a client that is not online, or whose messages are not all read, does not leave
  swap
  · exact ⟨r, if_neg hfd, h⟩
  obtain ⟨s', out, hr⟩ := h.orderly.reacts hallowed (e := .hangup fd) trivial (fun _ _ _ he => by cases he)
    (fun i hi => by rcases hi with ⟨_, hi⟩ | hi | hi <;> cases hi; exact hfd.1)
  have hdue : r.server.due (.hangup fd) =
      some { about := fd, type := OFFLINE, name := r.server.joinedAs fd, text := none } := if_pos hfd.1
  -- whoever is online now was so before, and is not the one that went
  have hon : ∀ d, s'.Online d → r.server.Online d ∧ d ≠ fd := by
    intro d hd
    refine ⟨?_, fun he => hr.gone fd rfl (he ▸ hd)⟩
    by_contra hd'
    obtain ⟨_, _, _, _, he, -⟩ := hr.joins d hd hd'
    cases he
  refine ⟨r.after (.hangup fd) s' out built, (if_pos hfd).trans (react_eq hr), hr.orderly,
    hr.limit.trans h.limit, proper_after hr h.proper, ?_, ?_, ?_⟩
  · intro d hd
    show r.since d ≤ (r.log ++ _).length
    rw [List.length_append]
    exact (h.since d (hon d hd).1).trans (Nat.le_add_right _ _)
  · intro d hd
    exact (h.seen d (hon d hd).1).after (h.since d (hon d hd).1) hr hb (hon d hd).1
  · intro d hd
    refine (h.said d (hon d hd).1).after (h.since d (hon d hd).1) hr (hon d hd).1 hd fun n hn => ?_
    rw [hdue] at hn
    cases hn
    exact (hon d hd).2.symm

/-- The read of a message is allowed, and calls for a notice of what was said. -/
theorem Arrives.spec {m : Message} {o : ClientOut} (h : Arrives m o) (s : Server) (hfd : s.Online fd) :
    Allowed s (.read fd m.toBytes) ∧ ∃ n, s.due (.read fd m.toBytes) = some n ∧ n.about = fd ∧
      n.name = s.joinedAs fd ∧ typed fd n = some o := by
  have hlen := m.length_toBytes
  rw [Server.due, if_pos ⟨hfd, hlen⟩]
  cases o with
  | idle => -- an IDLE message copies nothing
    have hidle := h.idle rfl
    refine ⟨fun _ _ hne => absurd ((msgType_readInto s.sendMsg hlen).trans hidle) hne, ?_⟩
    rw [if_pos hidle]
    exact ⟨_, rfl, rfl, rfl, if_pos rfl⟩
  | send text =>
    obtain ⟨hidle, htext, hfit⟩ := h.text text rfl
    refine ⟨fun _ _ _ => ?_, ?_⟩
    · rw [payload_readInto hlen h.nul, htext]
      exact hfit
    · rw [if_neg hidle, htext]
      exact ⟨_, rfl, rfl, rfl, if_pos rfl⟩

theorem Inv.serve (h : r.Inv maxClnt) (hb : r.Sound (.serve fd built)) :
    ∃ r', r.step (.serve fd built) = some r' ∧ r'.Inv maxClnt := by
  cases hqueue : r.toServer fd with
  | nil => exact ⟨r, by rw [step, hqueue], h⟩
  | cons m ms =>
    have hstep : r.step (.serve fd built) =
        if r.server.Online fd then (r.read fd ms).react (.read fd m.toBytes) built else some r := by
      rw [step, hqueue]
    rw [hstep]
    by_cases hfd : r.server.Online fd
    swap
    · exact ⟨r, if_neg hfd, h⟩
    rw [if_pos hfd]
    obtain ⟨hjoin, hname, unread, hout, hall⟩ := h.said fd hfd
    rw [hqueue] at hall
    -- the message is the oldest that the client has sent and the server has not read
    obtain ⟨o, rest, harrives, hrest, rfl⟩ := List.forall₂_cons_left_iff.1 hall
    obtain ⟨hallowed, n, hdue, habout, hnn, htyped⟩ := harrives.spec r.server hfd
    obtain ⟨s', out, hr⟩ := h.orderly.reacts hallowed ⟨m.length_toBytes, harrives.nul⟩ (fun _ _ _ he => by cases he)
      (fun i hi => by rcases hi with ⟨_, hi⟩ | hi | hi <;> cases hi; exact hfd)
    -- nobody comes in by a message
    have hon : ∀ d, s'.Online d → r.server.Online d := by
      intro d hd
      by_contra hd'
      obtain ⟨_, _, _, _, he, -⟩ := hr.joins d hd hd'
      cases he
    refine ⟨(r.read fd ms).after (.read fd m.toBytes) s' out built, react_eq hr, hr.orderly,
    hr.limit.trans h.limit, proper_after hr h.proper, ?_, ?_, ?_⟩
    · intro d hd
      show r.since d ≤ (r.log ++ _).length
      rw [List.length_append]
      exact (h.since d (hon d hd)).trans (Nat.le_add_right _ _)
    · intro d hd
      have hseen : (r.read fd ms).Seen d := h.seen d (hon d hd)
      exact hseen.after (h.since d (hon d hd)) hr hb (hon d hd)
    · intro d hd
      by_cases hne : d = fd
      · -- what was read goes from the unread messages to the log
        subst hne
        have hnews : ((r.read d ms).after (.read d m.toBytes) s' out built).news d = r.news d ++ [n] := by
          have hsince : (r.read d ms).since d ≤ (r.read d ms).log.length := h.since d hfd
          rw [news_after hsince]
          show r.news d ++ (r.server.due (.read d m.toBytes)).toList = _
          rw [hdue]
          rfl
        refine ⟨(hr.stays d hd hfd).trans hjoin, ?_, rest, ?_, ?_⟩
        swap
        · rw [hnews, List.filterMap_append, List.append_assoc]
          show (r.clients d).out.map cut = _
          rw [hout]
          simp [htyped]
        swap
        · show List.Forall₂ Arrives (Function.update r.toServer d ms d) rest
          rw [Function.update_self]
          exact hrest
        · intro n' hmem habout'
          rw [hnews, List.mem_append, List.mem_singleton] at hmem
          rcases hmem with hmem | rfl
          · exact hname n' hmem habout'
          · exact hnn.trans hjoin
      · -- the notice is about another client
        have hsaid : (r.read fd ms).Said d := by
          simpa only [Said, news, Room.read, Function.update_of_ne hne] using h.said d (hon d hd)
        refine hsaid.after (h.since d (hon d hd)) hr (hon d hd) hd fun n' hn' => ?_
        have heq : some n = some n' := hdue.symm.trans hn'
        cases heq
        rw [habout]
        exact Ne.symm hne

theorem Inv.turn (h : r.Inv maxClnt) (now later : ℤ) (stdinReady : Bool) (prior : ClientOut → Message) :
    ∃ r', r.step (.turn fd now later stdinReady prior) = some r' ∧ r'.Inv maxClnt := by
  have hpos : 0 < (r.turnOf fd now later stdinReady).recvBytes := by
    show (0 : ℤ) < msgSize
    decide
  -- the messages that this turn puts on the way, and what they display
  obtain ⟨new, hnew, hfits⟩ := turn_out (r.clients fd) (r.turnOf fd now later stdinReady) hpos
  obtain ⟨sent, hsent, hall⟩ := mapM_build hfits prior
  have hshown := turn_shown (r.clients fd) (r.turnOf fd now later stdinReady) hpos
  generalize hc : (r.clients fd).turn (r.turnOf fd now later stdinReady) = c at hnew hshown
  generalize hq : (if (r.clients fd).closed ∨ stdinReady then r.toClient
    else Function.update r.toClient fd (r.toClient fd).tail) = queues
  have hstep : r.step (.turn fd now later stdinReady prior) = some { r with
      clients := Function.update r.clients fd c
      toServer := Function.update r.toServer fd (r.toServer fd ++ sent)
      toClient := queues } := by
    rw [step, Room.turn]
    rw [hc, hnew, List.drop_left, hsent, hq]
  -- only this client takes a packet
  have hqueue : ∀ {d}, d ≠ fd → queues d = r.toClient d := by
    intro d hd
    rw [← hq]
    split
    · rfl
    · exact Function.update_of_ne hd _ _
  refine ⟨_, hstep, h.orderly, h.limit, h.proper, h.since, ?_, ?_⟩
  · intro d hd
    by_cases hne : d = fd
    · subst hne
      obtain ⟨count, names, hseen⟩ := h.seen d hd
      refine ⟨count, names, ?_⟩
      show (Function.update r.clients d c d).shown ++ (queues d).filterMap (clientShow msgSize) = _
      rw [Function.update_self, hshown, List.append_assoc]
      refine Eq.trans (congrArg _ ?_) hseen
      rw [← hq]
      by_cases hlook : (r.clients d).closed = true ∨ stdinReady = true
      · have hno : ¬ ((r.clients d).closed = false ∧ (r.turnOf d now later stdinReady).stdinReady = false ∧
            (r.turnOf d now later stdinReady).sockReady = true) := by
          rcases hlook with hl | hl <;> simp [turnOf, hl]
        rw [if_pos hlook, if_neg hno, List.nil_append]
      · rw [if_neg hlook, Function.update_self]
        rw [not_or, Bool.not_eq_true, Bool.not_eq_true] at hlook
        cases hto : r.toClient d with
        | nil => -- nothing is on its way
          simp [turnOf, hto]
        | cons m ms => -- the first packet on its way is displayed
          cases hline : clientShow msgSize m <;> simp [turnOf, hto, hlook, hline]
    · show Seen { r with clients := Function.update r.clients fd c,
                         toServer := Function.update r.toServer fd (r.toServer fd ++ sent), toClient := queues } d
      simpa only [Seen, news, Function.update_of_ne hne, hqueue hne] using h.seen d hd
  · intro d hd
    by_cases hne : d = fd
    · -- what is typed joins the unread messages
      subst hne
      obtain ⟨hjoin, hname, unread, hout, harr⟩ := h.said d hd
      refine ⟨hjoin, hname, unread ++ new.map cut, ?_, ?_⟩
      · show (Function.update r.clients d c d).out.map cut = _
        rw [Function.update_self, hnew, List.map_append, hout, List.append_assoc]
        rfl
      · show List.Forall₂ Arrives (Function.update r.toServer d (r.toServer d ++ sent) d) _
        rw [Function.update_self]
        exact List.rel_append harr hall
    · simpa only [Said, news, Function.update_of_ne hne] using h.said d hd

/-- **One act.** -/
theorem Inv.step (h : r.Inv maxClnt) {a : Act} (ha : r.Sound a) : ∃ r', r.step a = some r' ∧ r'.Inv maxClnt := by
  cases a with
  | join fd username stdin now prior namelist built => exact h.join ha
  | turn fd now later stdinReady prior => exact h.turn now later stdinReady prior
  | serve fd built => exact h.serve ha
  | leave fd built => exact h.leave ha

end Steps

/-! ### Runs -/

section Runs

variable {mem : Mem} {maxClnt : ℕ}

theorem inv_run (hmem : mem.Stale) (hmax : maxClnt < 2 ^ 31) (srvrFd : ℕ) {acts : List Act}
    (h : AllSteps step Sound (start mem maxClnt srvrFd) acts) :
    ∃ r, acts.foldlM step (start mem maxClnt srvrFd) = some r ∧ r.Inv maxClnt :=
  (allStates_of_allSteps (I := Inv maxClnt) (fun _ _ hr ha => hr.step ha) (inv_start hmem hmax srvrFd) h).last

/-- What is sound in every state of a room that nobody leaves: names of at most 15 characters, and room for the list of
`maxClnt` such names. -/
def Modest (maxClnt : ℕ) : Act → Prop
  | .join _ username _ _ _ namelist built =>
    username.length < 16 ∧ (cstr namelist).length + 18 * maxClnt < 512 ∧ Room.Short built
  | .turn _ _ _ _ _ => True
  | .serve _ built => Room.Short built
  | .leave _ _ => False

theorem Inv.sound_of_modest {r : Room} (h : r.Inv maxClnt) {a : Act} (ha : Modest maxClnt a) : r.Sound a := by
  cases a with
  | turn fd now later stdinReady prior => trivial
  | serve fd built => exact ha
  | leave fd built => exact ha.elim
  | join fd username stdin now prior namelist built =>
    obtain ⟨hname, hlist, hb⟩ := ha
    refine ⟨hname.trans (by decide), hb, fun m hm _ hroom _ => ?_⟩
    have hin : (r.server.nameIn m.toBytes).length < 16 := by
      rw [nameIn_joinChat r.server hm]
      exact (length_cstr_le username).trans_lt hname
    have hnames := h.orderly.length_names_joined fd hroom hin
    have hlimit := h.limit
    refine ⟨hin, ?_⟩
    rw [List.length_append]
    omega

def ClientOut.text? : ClientOut → Option Bytes
  | .send message => some message
  | .idle => none

theorem filterMap_text_idle (out : List ClientOut) :
    (ClientOut.idle :: out).filterMap ClientOut.text? = out.filterMap ClientOut.text? := rfl

theorem filterMap_text_send (message : Bytes) (out : List ClientOut) :
    (ClientOut.send message :: out).filterMap ClientOut.text? = message :: out.filterMap ClientOut.text? := rfl

theorem sends_cut (c : Client) : c.sends.map cstr = (c.out.map cut).filterMap ClientOut.text? := by
  have hout : ∀ out : List ClientOut, (out.filterMap fun o => match o with
      | .send message => some message
      | .idle => none).map cstr = (out.map cut).filterMap ClientOut.text? := by
    intro out
    induction out with
    | nil => rfl
    | cons o out ih =>
      cases o <;> simp only [List.map_cons, cut, filterMap_text_idle, filterMap_text_send, ← ih] <;> rfl
  exact hout c.out

/-- The lines of `i` among the notices about it are displayed by everyone else. -/
theorem lines_sublist {i d : ℕ} (hid : i ≠ d) {name : Bytes} (log : List Notice) (hproper : ∀ n ∈ log, n.Proper)
    (hname : ∀ n ∈ log, n.about = i → n.name = name) :
    ((((log.filterMap (typed i)).filterMap ClientOut.text?).filter (· ≠ ascii "N/A")).map (Line.fwd name)).Sublist
      ((log.filter (·.about ≠ d)).filterMap Notice.line) := by
  induction log with
  | nil => exact List.Sublist.slnil
  | cons n log ih =>
    have ih' := ih (fun n' hn' => hproper n' (List.mem_cons_of_mem _ hn'))
      fun n' hn' => hname n' (List.mem_cons_of_mem _ hn')
    have hrest : ((log.filter (·.about ≠ d)).filterMap Notice.line).Sublist
        (((n :: log).filter (·.about ≠ d)).filterMap Notice.line) :=
      ((List.sublist_cons_self n log).filter _).filterMap _
    by_cases habout : n.about = i
    · have hnd : n.about ≠ d := habout ▸ hid
      cases htext : n.text with
      | none =>
        have htyped : typed i n = some .idle := by rw [typed, if_pos habout, htext]; rfl
        simpa [htyped, filterMap_text_idle] using ih'.trans hrest
      | some text =>
        have htyped : typed i n = some (.send text) := by rw [typed, if_pos habout, htext]; rfl
        have htype : n.type = FWD := (hproper n List.mem_cons_self).isSome.1 (by rw [htext]; rfl)
        have hn := hname n List.mem_cons_self habout
        have hline : n.line = if text = ascii "N/A" then none else some (.fwd name text) := by
          rw [Notice.line, if_pos htype, htext, hn]
          rfl
        by_cases hna : text = ascii "N/A"
        · simpa [htyped, filterMap_text_send, hna] using ih'.trans hrest
        · rw [if_neg hna] at hline
          simpa [htyped, filterMap_text_send, hna, hnd, hline] using ih'
    · have htyped : typed i n = none := if_neg habout
      simpa [htyped] using ih'.trans hrest

/-- Ann and Bob come in, Ann types a line, the server reads it, and Bob looks at his socket. -/
def chat : List Act :=
  [.join 4 (ascii "ann") (ascii "hi\n") 0 (.blank 0) [] fun _ _ => .blank 0,
    .join 5 (ascii "bob") [] 0 (.blank 0) [] fun _ _ => .blank 0,
    .turn 4 1 1 true fun _ => .blank 0, .serve 4 fun _ _ => .blank 0, .turn 5 2 2 false fun _ => .blank 0]

theorem stale_clear : Mem.clear.Stale := by
  intro k d hd
  have hd0 : (0 : ℤ) = d := hd
  obtain rfl : d = 0 := by omega
  decide

theorem sound_chat : AllSteps step Sound (start Mem.clear 2 3) chat := by
  have hlen : (Message.blank 0).length.toInt ≤ msgSize := by decide
  have hshort : Room.Short fun _ _ => .blank 0 := fun _ _ => hlen
  refine allSteps_of_inv (I := Inv 2) (D := Modest 2) (fun r a h ha => h.sound_of_modest ha)
    (fun r a r' h ha hr' => ?_) (inv_start stale_clear (by decide) 3) ?_
  · obtain ⟨r'', hr'', hinv⟩ := h.step (h.sound_of_modest ha)
    exact Option.some.inj (hr''.symm.trans hr') ▸ hinv
  · simp only [chat, List.forall_mem_cons]
    exact ⟨⟨by decide, by decide, hshort⟩, ⟨by decide, by decide, hshort⟩, trivial, hshort, trivial, by simp⟩

end Runs

end Room

end TamuProofs.Sbcp
