/-
PrunedElectrs/Subscriptions.lean

Clients that are subscribed to the tip, of a server that synchronizes.

The server keeps with each client the hash of the tip it was last told of
(`Client.tip`), and after a change of the chain goes through its clients
(`update_client`).  The field is tied to the history: it is the hash of the
header that the client's connection last carried as a tip (`Inv.told`).  As a
tip stands for one path, header and height go with the hash, and so a client is
told of the tip exactly when the last thing it was told is something else
(`told_of_run`): nothing is announced twice, and nothing is left out.
-/
import PrunedElectrs.Electrum
import PrunedElectrs.IndexSync

namespace PrunedElectrs

open Wire Runs

/-- What the server runs with. -/
structure Subscriptions where
  sync : IndexSync
  checkBetween : Rpc.CheckBetween
  serverId : String

namespace Subscriptions

/-- The server with its database, and its clients. -/
structure State where
  server : Server
  clients : ℕ → Option Client

/-- What the sessions see of it. -/
def State.sessions (s : State) : Sessions where
  chain := s.server.chain
  clients := s.clients

variable (E : Subscriptions)

/-- A step of the server or of the sessions, and what is seen of it. -/
inductive Step : State → List SessionEvent → State → Prop
  | message {s : State} {payload : Bytes} {server : Server} :
      E.sync.Message payload s.server server → Step s [] { s with server := server }
  | batch {s : State} {server : Server} :
      E.sync.Batch s.server server → Step s [] { s with server := server }
  | finish {s : State} {server : Server} :
      IndexSync.Finish s.server server → Step s [] { s with server := server }
  /-- The connections end with the process. -/
  | restart {s : State} {server : Server} :
      E.sync.Restart s.server server → Step s [] { server := server, clients := fun _ => none }
  /-- Connections, requests and notifications. -/
  | session {s : State} {es : List SessionEvent} {clients : ℕ → Option Client} :
      Sessions.Step E.checkBetween E.serverId s.sessions es
        { s.sessions with clients := clients } →
      Step s es { s with clients := clients }

/-- An empty database, and nobody connected. -/
structure Init (s : State) : Prop where
  server : s.server = Server.init E.sync.H E.sync.genesis
  clients : ∀ id, s.clients id = none

/-- What an event says of the tip that a client was last told of. -/
def note (id : ℕ) (last : Option (AnyHeader × ℕ)) : SessionEvent → Option (AnyHeader × ℕ)
  | .connected i => if i = id then none else last
  | .sent i (.headerAt header height) => if i = id then some (header, height) else last
  | _ => last

/-- The header and the height that the present connection last carried as a tip. -/
def lastTold (id : ℕ) (es : List SessionEvent) : Option (AnyHeader × ℕ) := es.foldl (note id) none

/-- There is a chain of this height with this header at its top. -/
def IsTip (p : AnyHeader × ℕ) : Prop :=
  ∃ path, IsPathTo E.sync.H E.sync.genesis E.sync.U (p.1.blockHash E.sync.H).toList path
    ∧ path.getLast? = some p.1 ∧ path.length = p.2 + 1

/-- A client's field and what it was told. -/
def Told (es : List SessionEvent) (id : ℕ) (client : Client) : Prop :=
  client.tip = (lastTold id es).map (fun p => p.1.blockHash E.sync.H)
    ∧ ∀ p ∈ lastTold id es, E.IsTip p

/-- What every run keeps. -/
structure Inv (es : List SessionEvent) (s : State) : Prop where
  server : E.sync.Reachable s.server
  told : ∀ id client, s.clients id = some client → E.Told es id client

variable {E} {es : List SessionEvent} {s s' : State}

/-! ### Tips -/

/-- A header is the tip of one path, which has one height. -/
theorem IsTip.unique (hU : Chain.HashesApart E.sync.H E.sync.genesis E.sync.U)
    {p q : AnyHeader × ℕ} (hp : E.IsTip p) (hq : E.IsTip q)
    (h : p.1.blockHash E.sync.H = q.1.blockHash E.sync.H) : p = q := by
  obtain ⟨P, hP, hlast, hlength⟩ := hp
  obtain ⟨Q, hQ, hlast', hlength'⟩ := hq
  rw [← h] at hQ
  obtain rfl := hP.unique hU hQ
  refine Prod.ext (Option.some.inj (hlast.symm.trans hlast')) ?_
  omega

/-- The tip of the chain in memory. -/
theorem exists_tip (hU : Chain.HashesApart E.sync.H E.sync.genesis E.sync.U)
    (hg : .v1 E.sync.genesis ∈ E.sync.U) {server : Server} (h : E.sync.Reachable server) :
    ∃ header, E.IsTip (header, server.chain.height)
      ∧ server.chain.tip = .ok (header.blockHash E.sync.H)
      ∧ Rpc.headerAtTip server.chain = .ok header := by
  obtain ⟨L, hL, hmem, -⟩ := (inv_reachable hU hg h.server).chain
  have hne : L ≠ [] := List.length_pos_iff.mp hL.length_pos
  have hlength := hL.length_eq
  have hpos := hL.length_pos
  have hlast := List.getLast?_eq_some_getLast hne
  have hheaders : server.chain.headers.getLast? = some (Chain.entry E.sync.H (L.getLast hne)) := by
    rw [hL.headers, List.getLast?_map, hlast, Option.map_some]
  refine ⟨L.getLast hne, ⟨L, ⟨hL.head, hL.linked, hmem, ?_⟩, hlast, ?_⟩, ?_, ?_⟩
  · rw [hlast, Option.map_some]
  · rw [Chain.height]
    dsimp only
    omega
  · rw [Chain.tip, hheaders]
    rfl
  · rw [Rpc.headerAtTip_eq_ok, Chain.getBlockHeader, Chain.height, ← List.getLast?_eq_getElem?,
      hheaders]
    rfl

/-! ### What is told -/

theorem lastTold_append (id : ℕ) (es new : List SessionEvent) :
    lastTold id (es ++ new) = new.foldl (note id) (lastTold id es) := List.foldl_append

/-- Events that announce nothing to a client. -/
theorem lastTold_append_of {id : ℕ} {new : List SessionEvent}
    (h : ∀ e ∈ new, ∀ last, note id last e = last) : lastTold id (es ++ new) = lastTold id es := by
  rw [lastTold_append]
  exact List.foldlRecOn new (note id) (motive := fun x => x = lastTold id es) rfl
    fun last hlast e he => (h e he last).trans hlast

/-- The notification of a client, where this is the tip. -/
theorem updateClient_of_tip {chain : Chain} {client : Client} {hash : BlockHash}
    (htip : client.tip = some hash) (h : chain.tip = .ok hash) :
    Rpc.updateClient chain client = .ok (client, []) := by
  rw [Rpc.updateClient, htip]
  simp only [h, ok_bind, ne_eq, not_true_eq_false, if_false]
  rfl

/-- Where the tip is another one, the client is told of it if it may be. -/
theorem updateClient_of_ne {chain : Chain} {client : Client} {hash newTip : BlockHash}
    {header : AnyHeader} (htip : client.tip = some hash) (h : chain.tip = .ok newTip)
    (hheader : Rpc.headerAtTip chain = .ok header) (hne : hash ≠ newTip) :
    Rpc.updateClient chain client = (do
      Rpc.checkMayServeHeaders chain client
      return ({ client with tip := some newTip }, [.headerAt header chain.height])) := by
  rw [Rpc.updateClient, htip]
  simp only [h, ok_bind, hheader, if_pos hne]

/-- What is sent to a subscriber, and what is kept of it. -/
theorem headersSubscribe_eq_ok {chain : Chain} {client client' : Client} {reply : Reply}
    {hash : BlockHash} {header : AnyHeader} (h : chain.tip = .ok hash)
    (hheader : Rpc.headerAtTip chain = .ok header)
    (hok : Rpc.headersSubscribe chain client = .ok (client', reply)) :
    client'.tip = some hash ∧ reply = .headerAt header chain.height := by
  rw [Rpc.headersSubscribe] at hok
  obtain ⟨u, -, hok⟩ := bind_eq_ok.mp hok
  simp only [h, ok_bind, hheader] at hok
  obtain ⟨rfl, rfl⟩ := Prod.mk.inj (Except.ok.inj hok)
  exact ⟨rfl, rfl⟩

/-- Whose connection an event is on. -/
def idOf : SessionEvent → ℕ
  | .connected id => id
  | .accepted id _ _ _ => id
  | .sent id _ => id
  | .refused id _ => id

theorem note_of_ne {id : ℕ} {e : SessionEvent} (h : idOf e ≠ id) (last : Option (AnyHeader × ℕ)) :
    note id last e = last := by
  cases e with
  | connected i => exact if_neg h
  | accepted i request version chainHasV2 => rfl
  | sent i reply =>
      cases reply with
      | headerAt header height => exact if_neg h
      | version _ _ => rfl
      | header _ => rfl
      | headers _ _ _ => rfl
  | refused i chain => rfl

/-- A tip that is announced is what the client was last told. -/
theorem lastTold_announced (es : List SessionEvent) (id : ℕ) (header : AnyHeader) (height : ℕ) :
    lastTold id (es ++ [.sent id (.headerAt header height)]) = some (header, height) := by
  rw [lastTold_append]
  exact if_pos rfl

theorem Told.keep {id : ℕ} {client client' : Client} (h : E.Told es id client)
    (htip : client'.tip = client.tip) {new : List SessionEvent}
    (hnew : ∀ e ∈ new, ∀ last, note id last e = last) : E.Told (es ++ new) id client' := by
  rw [Told, lastTold_append_of hnew, htip]
  exact h

theorem Told.of_tip {id : ℕ} {client : Client} {header : AnyHeader} {height : ℕ}
    (htip : E.IsTip (header, height)) (h : client.tip = some (header.blockHash E.sync.H)) :
    E.Told (es ++ [.sent id (.headerAt header height)]) id client := by
  rw [Told, lastTold_announced]
  refine ⟨h, fun p hp => ?_⟩
  obtain rfl := Option.some.inj hp
  exact htip

/-- An answer leaves what the client was told and its field in step. -/
theorem Told.answer {id : ℕ} {client client' : Client} {request : Request} {reply : Reply}
    {checkBetween : Rpc.CheckBetween} {serverId : String} {s : Sessions} {header : AnyHeader}
    (htip : E.IsTip (header, s.chain.height))
    (hchain : s.chain.tip = .ok (header.blockHash E.sync.H))
    (hheader : Rpc.headerAtTip s.chain = .ok header) (h : E.Told es id client)
    (hok : Rpc.call checkBetween serverId s.chain client request = .ok (client', reply)) :
    E.Told (es ++ s.answered id request client' reply) id client' := by
  cases request with
  | version clientId r =>
      obtain ⟨u, -, hok⟩ := bind_eq_ok.mp hok
      obtain ⟨rfl, rfl⟩ := Prod.mk.inj (Except.ok.inj hok)
      refine h.keep rfl fun e he last => ?_
      rcases List.mem_cons.mp he with rfl | he
      · rfl
      · obtain rfl := List.mem_singleton.mp he
        rfl
  | blockHeader height =>
      obtain ⟨r, hr, hok⟩ := bind_eq_ok.mp hok
      obtain ⟨rfl, rfl⟩ := Prod.mk.inj (Except.ok.inj hok)
      obtain ⟨u, -, hr⟩ := bind_eq_ok.mp hr
      refine h.keep rfl fun e he last => ?_
      obtain rfl := List.mem_singleton.mp he
      rcases hget : s.chain.getBlockHeader height with - | header
      · rw [hget] at hr
        cases hr
      · rw [hget] at hr
        obtain rfl := Except.ok.inj hr
        rfl
  | blockHeaders startHeight count =>
      obtain ⟨r, hr, hok⟩ := bind_eq_ok.mp hok
      obtain ⟨rfl, rfl⟩ := Prod.mk.inj (Except.ok.inj hok)
      obtain ⟨u, -, hr⟩ := bind_eq_ok.mp hr
      refine h.keep rfl fun e he last => ?_
      obtain rfl := List.mem_singleton.mp he
      obtain rfl := Except.ok.inj hr
      rfl
  | headersSubscribe =>
      obtain ⟨hclient, rfl⟩ := headersSubscribe_eq_ok hchain hheader hok
      exact .of_tip htip hclient

/-- So does a notification. -/
theorem Told.notify {id : ℕ} {client client' : Client} {replies : List Reply} {chain : Chain}
    {header : AnyHeader} (htip : E.IsTip (header, chain.height))
    (hchain : chain.tip = .ok (header.blockHash E.sync.H))
    (hheader : Rpc.headerAtTip chain = .ok header) (h : E.Told es id client)
    (hok : Rpc.updateClient chain client = .ok (client', replies)) :
    E.Told (es ++ replies.map (.sent id)) id client' := by
  rcases hold : client.tip with - | hash
  · rw [Rpc.updateClient, hold] at hok
    obtain ⟨rfl, rfl⟩ := Prod.mk.inj (Except.ok.inj hok)
    rw [List.map_nil, List.append_nil]
    exact h
  · by_cases hsame : hash = header.blockHash E.sync.H
    · rw [updateClient_of_tip hold (hsame ▸ hchain)] at hok
      obtain ⟨rfl, rfl⟩ := Prod.mk.inj (Except.ok.inj hok)
      rw [List.map_nil, List.append_nil]
      exact h
    · rw [updateClient_of_ne hold hchain hheader hsame] at hok
      obtain ⟨u, -, hok⟩ := bind_eq_ok.mp hok
      obtain ⟨rfl, rfl⟩ := Prod.mk.inj (Except.ok.inj hok)
      exact .of_tip htip rfl

/-! ### Runs -/

/-- A client's entry is replaced, by events on its connection. -/
theorem Inv.set (h : E.Inv es s) {new : List SessionEvent} {id : ℕ} {client : Client}
    (hnew : ∀ e ∈ new, idOf e = id) (hself : E.Told (es ++ new) id client) :
    E.Inv (es ++ new) { s with clients := Function.update s.clients id (some client) } := by
  refine ⟨h.server, fun i client' hclient => ?_⟩
  by_cases hi : i = id
  · subst hi
    simp only [Function.update_self, Option.some.injEq] at hclient
    subst hclient
    exact hself
  · simp only [Function.update_of_ne hi] at hclient
    exact (h.told i client' hclient).keep rfl fun e he =>
      note_of_ne fun hid => hi (hid.symm.trans (hnew e he))

/-- A client leaves. -/
theorem Inv.remove (h : E.Inv es s) (id : ℕ) :
    E.Inv es { s with clients := Function.update s.clients id none } := by
  refine ⟨h.server, fun i client hclient => ?_⟩
  by_cases hi : i = id
  · subst hi
    simp at hclient
  · simp only [Function.update_of_ne hi] at hclient
    exact h.told i client hclient

theorem Inv.session (hU : Chain.HashesApart E.sync.H E.sync.genesis E.sync.U)
    (hg : .v1 E.sync.genesis ∈ E.sync.U) (h : E.Inv es s) {new : List SessionEvent} {t : Sessions}
    (hstep : Sessions.Step E.checkBetween E.serverId s.sessions new t) :
    E.Inv (es ++ new) { s with clients := t.clients } := by
  obtain ⟨header, htip, hchain, hheader⟩ := exists_tip hU hg h.server
  cases hstep with
  | replaceChain _ =>
      rw [List.append_nil]
      exact h
  | @connect id _ =>
      refine h.set (fun e he => ?_) ?_
      · obtain rfl := List.mem_singleton.mp he
        rfl
      · have hnone : lastTold id (es ++ [.connected id]) = none := by
          rw [lastTold_append]
          exact if_pos rfl
        rw [Told, hnone]
        exact ⟨rfl, fun p hp => absurd hp (Option.not_mem_none p)⟩
  | disconnect =>
      rw [List.append_nil]
      exact h.remove _
  | @answer id client client' request reply hclient hcall =>
      refine h.set (fun e he => ?_) ((h.told id client hclient).answer htip hchain hheader hcall)
      cases request with
      | version clientId r =>
          rcases List.mem_cons.mp he with rfl | he
          · rfl
          · obtain rfl := List.mem_singleton.mp he
            rfl
      | blockHeader height =>
          obtain rfl := List.mem_singleton.mp he
          rfl
      | blockHeaders startHeight count =>
          obtain rfl := List.mem_singleton.mp he
          rfl
      | headersSubscribe =>
          obtain rfl := List.mem_singleton.mp he
          rfl
  | refuse _ _ =>
      refine ⟨h.server, fun i client hclient => (h.told i client hclient).keep rfl ?_⟩
      intro e he last
      obtain rfl := List.mem_singleton.mp he
      rfl
  | @notify id client client' replies hclient hupdate =>
      refine h.set (fun e he => ?_) ((h.told id client hclient).notify htip hchain hheader hupdate)
      obtain ⟨reply, -, rfl⟩ := List.mem_map.mp he
      rfl
  | drop _ _ =>
      rw [List.append_nil]
      exact h.remove _

theorem inv_init (h : E.Init s) : E.Inv [] s where
  server := by
    rw [h.server]
  told := fun id client hclient => by
    rw [h.clients id] at hclient
    cases hclient

theorem inv_step (hU : Chain.HashesApart E.sync.H E.sync.genesis E.sync.U)
    (hg : .v1 E.sync.genesis ∈ E.sync.U) {new : List SessionEvent} (h : E.Inv es s)
    (hstep : E.Step s new s') : E.Inv (es ++ new) s' := by
  cases hstep with
  | message hmessage =>
      rw [List.append_nil]
      exact ⟨h.server.tail (.message hmessage), h.told⟩
  | batch hbatch =>
      rw [List.append_nil]
      exact ⟨h.server.tail (.batch hbatch), h.told⟩
  | finish hfinish =>
      rw [List.append_nil]
      exact ⟨h.server.tail (.finish hfinish), h.told⟩
  | restart hrestart =>
      exact ⟨h.server.tail (.restart hrestart), fun id client hclient => by cases hclient⟩
  | session hsession => exact h.session hU hg hsession

/-- **Every subscriber is told of the tip, once.**  In every run, whatever is
synchronized, restarted, connected and asked for: a client that is not subscribed
is not notified, and one that is, is notified exactly if the header it was last
told of, or its height, is not the tip's; it is then told of the tip, or refused,
which disconnects it. -/
theorem told_of_run (E : Subscriptions)
    (hU : Chain.HashesApart E.sync.H E.sync.genesis E.sync.U)
    (hg : .v1 E.sync.genesis ∈ E.sync.U) {es : List SessionEvent} {s : State}
    (h : Run E.Init E.Step es s) {id : ℕ} {client : Client} (hclient : s.clients id = some client) :
    (lastTold id es = none → Rpc.updateClient s.server.chain client = .ok (client, [])) ∧
    ∀ p, lastTold id es = some p →
      ∃ header, Rpc.headerAtTip s.server.chain = .ok header ∧
        (p = (header, s.server.chain.height) →
          Rpc.updateClient s.server.chain client = .ok (client, [])) ∧
        (p ≠ (header, s.server.chain.height) →
          mayServeHeaders s.server.chain.hasV2Headers client.negotiated → ∃ client',
            Rpc.updateClient s.server.chain client
                = .ok (client', [.headerAt header s.server.chain.height]) ∧
              client'.tip = some (header.blockHash E.sync.H)) ∧
        (p ≠ (header, s.server.chain.height) →
          ¬ mayServeHeaders s.server.chain.hasV2Headers client.negotiated →
            ∃ msg, Rpc.updateClient s.server.chain client = .error (.err [msg])) := by
  have hinv : E.Inv es s := h.invariant (fun _ hs => inv_init hs) fun _ _ _ _ => inv_step hU hg
  obtain ⟨header, htip, hchain, hheader⟩ := exists_tip hU hg hinv.server
  obtain ⟨hfield, hpast⟩ := hinv.told id client hclient
  refine ⟨fun hnone => ?_, fun p hp => ⟨header, hheader, fun hsame => ?_, fun hne hmay => ?_,
    fun hne hmay => ?_⟩⟩
  · rw [hnone] at hfield
    rw [Rpc.updateClient, hfield]
    rfl
  all_goals rw [hp, Option.map_some] at hfield
  · subst hsame
    exact updateClient_of_tip hfield hchain
  -- another header or height is another hash
  all_goals
    have hother : p.1.blockHash E.sync.H ≠ header.blockHash E.sync.H := fun e =>
      hne ((hpast p hp).unique hU htip e)
    rw [updateClient_of_ne hfield hchain hheader hother]
  · have hcheck : Rpc.checkMayServeHeaders s.server.chain client = .ok () :=
      Rpc.checkMayServeHeaders_eq_ok.mpr hmay
    rw [hcheck]
    exact ⟨_, rfl, rfl⟩
  · rw [Rpc.checkMayServeHeaders, if_neg hmay]
    exact ⟨_, rfl⟩

/-! ### A subscriber on regtest -/

/-- A step that no client sees. -/
theorem run_of_unseen (h : Run E.Init E.Step es s) (hstep : E.Step s [] s') :
    Run E.Init E.Step es s' := by
  have hrun := h.step hstep
  rw [List.append_nil] at hrun
  exact hrun

/-- The server goes through its rounds while no client does anything. -/
theorem run_of_rounds {server server' : Server} {payloads : List Bytes}
    (hrounds : E.sync.Rounds server payloads server') {clients : ℕ → Option Client}
    (h : Run E.Init E.Step es ⟨server, clients⟩) : Run E.Init E.Step es ⟨server', clients⟩ :=
  hrounds.keeps (P := fun server => Run E.Init E.Step es ⟨server, clients⟩)
    (fun hmessage h => run_of_unseen h (.message hmessage))
    (fun hbatch h => run_of_unseen h (.batch hbatch))
    (fun hfinish h => run_of_unseen h (.finish hfinish)) h

/-- A server on regtest. -/
def regtest : Subscriptions where
  sync := regtestSync
  checkBetween := checkBetweenKnown
  serverId := "electrs"

/-- A client subscribes when there is only the genesis block. -/
theorem regtest_subscribed : ∃ clients client, clients 0 = some client ∧
    Run regtest.Init regtest.Step [.connected 0, .sent 0 (.headerAt (.v1 regtestGenesis) 0)]
      ⟨Server.init knownHashes regtestGenesis, clients⟩ := by
  have hinit : regtest.Init ⟨Server.init knownHashes regtestGenesis, fun _ => none⟩ :=
    ⟨rfl, fun _ => rfl⟩
  have hconnected := (Run.init hinit : Run regtest.Init regtest.Step [] _).step
    (.session (@Sessions.Step.connect _ _ _ 0 rfl))
  obtain ⟨client, hcall⟩ : ∃ client,
      Rpc.call checkBetweenKnown "electrs" (Chain.new knownHashes regtestGenesis) Client.fresh
        .headersSubscribe = .ok (client, .headerAt (.v1 regtestGenesis) 0) := ⟨_, rfl⟩
  have hsubscribed := hconnected.step (.session
    (@Sessions.Step.answer _ _ _ 0 Client.fresh client .headersSubscribe _ rfl hcall))
  exact ⟨_, client, Function.update_self _ _ _, hsubscribed⟩

/-- Once the server has block 1, the client is told of it. -/
theorem told_of_run_regtest : ∃ (s : State) (client client' : Client), s.clients 0 = some client ∧
    Rpc.updateClient s.server.chain client
      = .ok (client', [.headerAt (.v1 regtestBlock1) 1]) := by
  obtain ⟨server, hrounds, hpath⟩ := rounds_regtest
  obtain ⟨clients, client, hclient, hsubscribed⟩ := regtest_subscribed
  have hrun := run_of_rounds (E := regtest) hrounds hsubscribed
  have hlast : lastTold 0 [.connected 0, .sent 0 (.headerAt (.v1 regtestGenesis) 0)]
      = some (.v1 regtestGenesis, 0) := rfl
  have hheight : server.chain.height = 1 := by
    rw [Chain.height, hpath.headers]
    rfl
  have hv1 : server.chain.hasV2Headers = false := by
    rw [Chain.hasV2Headers, hpath.headers]
    rfl
  obtain ⟨header, hheader, -, htold, -⟩ := (told_of_run regtest regtest_apart regtestGenesis_mem
    hrun hclient).2 _ hlast
  have hne : (AnyHeader.v1 regtestGenesis, 0) ≠ (header, server.chain.height) := by
    rw [hheight]
    exact fun e => absurd (congrArg Prod.snd e) Nat.zero_ne_one
  obtain ⟨client', hupdate, -⟩ := htold hne (by rw [hv1]; rfl)
  have hblock : header = .v1 regtestBlock1 := by
    rw [Rpc.headerAtTip_eq_ok, hheight, Chain.getBlockHeader, hpath.headers] at hheader
    exact (Option.some.inj hheader).symm
  rw [hblock, hheight] at hupdate
  exact ⟨⟨server, clients⟩, client, client', hclient, hupdate⟩

end Subscriptions

end PrunedElectrs
