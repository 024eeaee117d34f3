import Istatd.Lib.Run
import Istatd.UdpFraming

/-!
# The blacklist and datagrams

A server keeps what its senders say about themselves in `metaInfo_`, and refuses the commands of a
sender whose hostname is on the blacklist.  The key of `metaInfo_` is the connection, and a datagram
has none: all datagrams have the key 0 and share one record.

* `UdpServer.handleCmd`, `UdpServer.step`: datagrams from any senders, and loads of the blacklist;
* `announced`: the hostname a command announces;
* `UdpServer.Inv`: the hostname kept is the one that was announced last;
* `blacklist_of_all_senders`: which commands are handled, and what other senders have to do with it.
-/

namespace Istatd

/-- The names under which `info_` has the hostname and the peer. -/
def hostnameKey : Bytes := bytes "hostname"

@[inherit_doc hostnameKey] def peerKey : Bytes := bytes "_peer"

/-- `MetaInfo`, without its times. -/
structure MetaInfo where
  online : Bool
  info : Bytes → Option Bytes

/-- A command as `handleCmd` got it, and what it returned. -/
structure HandledCmd where
  sender : Bytes
  cmd : Bytes
  blacklist : List Bytes
  status : HandleStatus
  deriving DecidableEq

/-- A server with a blacklist: the set that was loaded last, what `metaInfo_` has under the key 0,
and the commands so far. -/
structure UdpServer where
  blacklist : List Bytes
  metaInfo : Option MetaInfo
  handled : List HandledCmd

/-- A host name in lower case. -/
def lowered (host : Bytes) : Bytes := host.map toLower

/-- The set that `Blacklist::load` makes of a file. -/
def loadBlacklist (content : Bytes) : List Bytes :=
  ((Lines.lines newline (content ++ [newline])).filter (· ≠ [])).map lowered

namespace UdpServer

/-- A server that received nothing. -/
def start (content : Bytes) : UdpServer := ⟨loadBlacklist content, none, []⟩

/-- The hostname in the record of the datagrams. -/
def hostname (s : UdpServer) : Option Bytes := s.metaInfo.bind fun mi => mi.info hostnameKey

/-- `checkBlacklistAndMaybeClose`.  `contains` changes the host name it is given to lower case, and
a `UdpConnectionInfo` is not `opened()`. -/
def checkBlacklistAndMaybeClose (s : UdpServer) : Bool × UdpServer :=
  match s.metaInfo with
  | none => (false, s)
  | some mi =>
    match mi.info hostnameKey with
    | none => (false, s)
    | some host =>
      let info := Function.update mi.info hostnameKey (some (lowered host))
      (s.blacklist.contains (lowered host), { s with metaInfo := some { mi with info := info } })

/-- `StatServer::metaInfo` of a `UdpConnectionInfo`. -/
def metaInfoOf (s : UdpServer) (sender : Bytes) : MetaInfo :=
  let fresh : MetaInfo := ⟨true, Function.update (fun _ => none) peerKey (some sender)⟩
  match s.metaInfo with
  | none => fresh
  | some mi => if mi.online then mi else fresh

/-- `handle_meta_info`. -/
def handleMetaInfo (s : UdpServer) (sender cmd : Bytes) : UdpServer :=
  let (n, left, right) := split cmd (byte ' ')
  if n ≠ 2 then s
  else
    let mi := s.metaInfoOf sender
    let info := Function.update mi.info ((trim left).drop 1) (some (trim right))
    { s with metaInfo := some { mi with info := info } }

/-- `handleCmd`.  Commands other than `#` do nothing to `metaInfo_`. -/
def handleCmd (s : UdpServer) (sender cmd : Bytes) : HandleStatus × UdpServer :=
  let (listed, s) := s.checkBlacklistAndMaybeClose
  if listed then (.blacklisted, s)
  else if cmd = [] then (.unhandled, s)
  else if cmd.head? = some (byte '#') then (.success, s.handleMetaInfo sender cmd)
  else (.success, s)

/-- `handleCmd`, which is written down. -/
def receive (sender : Bytes) (s : UdpServer) (cmd : Bytes) : HandleStatus × UdpServer :=
  let (status, s') := s.handleCmd sender cmd
  (status, { s' with handled := s.handled ++ [⟨sender, cmd, s.blacklist, status⟩] })

end UdpServer

/-- A datagram, or a load of the blacklist that finds a newer file. -/
inductive UdpEvent
  | datagram (sender d : Bytes)
  | load (content : Bytes)
  deriving DecidableEq

namespace UdpEvent

/-- It is a datagram of the sender. -/
def isFrom (a : Bytes) : UdpEvent → Bool
  | .datagram sender _ => sender = a
  | .load _ => false

/-- The commands of a datagram. -/
def commands : UdpEvent → List Bytes
  | .datagram _ d => udpCommands d
  | .load _ => []

end UdpEvent

namespace UdpServer

/-- What the server does at an event. -/
def step (s : UdpServer) : UdpEvent → UdpServer
  | .datagram sender d => (onUdpRecv (receive sender) s d).2
  | .load content => { s with blacklist := loadBlacklist content }

/-- The server after some events. -/
def run (s : UdpServer) (es : List UdpEvent) : UdpServer := es.foldl step s

end UdpServer

/-! ### Host names -/

/-- The hostname that a command announces. -/
def announced (cmd : Bytes) : Option Bytes :=
  let (n, left, right) := split cmd (byte ' ')
  if cmd.head? = some (byte '#') ∧ n = 2 ∧ (trim left).drop 1 = hostnameKey then some (trim right)
  else none

/-- The hostname announced last by a command that was handled. -/
def lastAnnounced (l : List HandledCmd) : Option Bytes :=
  (l.filterMap fun e => if e.status = .success then announced e.cmd else none).getLast?

theorem lastAnnounced_append (l : List HandledCmd) (e : HandledCmd) :
    lastAnnounced (l ++ [e]) =
      if e.status = .success then (announced e.cmd).or (lastAnnounced l) else lastAnnounced l := by
  unfold lastAnnounced
  rw [List.filterMap_append]
  by_cases hst : e.status = .success
  · cases hann : announced e.cmd <;> simp [hst, hann]
  · simp [hst]

/-- The host, as `contains` looks it up, is on the blacklist. -/
def Listed (blacklist : List Bytes) (host : Option Bytes) : Prop :=
  ∃ h ∈ blacklist, host.map lowered = some h

instance (blacklist : List Bytes) (host : Option Bytes) : Decidable (Listed blacklist host) :=
  inferInstanceAs (Decidable (∃ h ∈ blacklist, _))

theorem toLower_toLower (ch : UInt8) : toLower (toLower ch) = toLower ch := by
  unfold toLower
  split_ifs with hupper hagain
  · have hA : (byte 'A').toNat = 65 := by decide
    have hZ : (byte 'Z').toNat = 90 := by decide
    have hdist : (32 : UInt8).toNat = 32 := by decide
    simp only [UInt8.le_iff_toNat_le, UInt8.toNat_add, hA, hZ, hdist] at hupper hagain
    omega
  all_goals rfl

theorem lowered_lowered (host : Bytes) : lowered (lowered host) = lowered host := by
  simp [lowered, toLower_toLower]

namespace UdpServer

variable {s s' : UdpServer}

/-- The record of the datagrams is never offline. -/
def Online (s : UdpServer) : Prop := ∀ mi, s.metaInfo = some mi → mi.online = true

/-- What `checkBlacklistAndMaybeClose` finds, and that it changes the case of the hostname only. -/
theorem checkBlacklistAndMaybeClose_spec (hs : s.Online) :
    ∃ mi, s.checkBlacklistAndMaybeClose =
        (decide (Listed s.blacklist s.hostname), { s with metaInfo := mi }) ∧
      Online { s with metaInfo := mi } ∧
      (hostname { s with metaInfo := mi }).map lowered = s.hostname.map lowered := by
  obtain ⟨blacklist, metaInfo, handled⟩ := s
  cases metaInfo with
  | none => exact ⟨none, by simp [checkBlacklistAndMaybeClose, hostname, Listed], hs, rfl⟩
  | some mi =>
    cases hhost : mi.info hostnameKey with
    | none =>
      exact ⟨some mi, by simp [checkBlacklistAndMaybeClose, hostname, Listed, hhost], hs, rfl⟩
    | some host =>
      refine ⟨some { mi with info := Function.update mi.info hostnameKey (some (lowered host)) },
        ?_, ?_, ?_⟩
      · simp [checkBlacklistAndMaybeClose, hostname, Listed, hhost]
      · rintro mi' ⟨⟩
        exact hs mi rfl
      · simp [hostname, hhost, lowered_lowered]

/-- A meta info command sets the hostname if it announces one. -/
theorem handleMetaInfo_spec (hs : s.Online) (sender : Bytes) {cmd : Bytes}
    (hcmd : cmd.head? = some (byte '#')) :
    ∃ mi, s.handleMetaInfo sender cmd = { s with metaInfo := mi } ∧
      Online { s with metaInfo := mi } ∧
      hostname { s with metaInfo := mi } = (announced cmd).or s.hostname := by
  have hpeer : hostnameKey ≠ peerKey := by decide
  have hof : (s.metaInfoOf sender).online = true ∧
      (s.metaInfoOf sender).info hostnameKey = s.hostname := by
    unfold metaInfoOf hostname
    cases hmi : s.metaInfo with
    | none => simp [hpeer]
    | some mi => simp [hs mi hmi]
  rcases hsplit : split cmd (byte ' ') with ⟨n, left, right⟩
  by_cases hn : n = 2
  · refine ⟨some { s.metaInfoOf sender with
        info := Function.update (s.metaInfoOf sender).info ((trim left).drop 1) (some (trim right)) },
      by simp only [handleMetaInfo, hsplit, hn, ne_eq, not_true, if_false], ?_, ?_⟩
    · rintro mi' ⟨⟩
      exact hof.1
    · by_cases hkey : (trim left).drop 1 = hostnameKey
      · simp [hostname, announced, hsplit, hcmd, hn, hkey]
      · have hann : announced cmd = none := by
          simp only [announced, hsplit, hkey, and_false, if_false]
        rw [hann, Option.none_or, ← hof.2]
        exact Function.update_of_ne (Ne.symm hkey) _ _
  · refine ⟨s.metaInfo, by simp only [handleMetaInfo, hsplit, hn, ne_eq, not_false_eq_true, if_true],
      hs, ?_⟩
    simp [announced, hsplit, hn]

theorem announced_of_head {cmd : Bytes} (hcmd : cmd.head? ≠ some (byte '#')) :
    announced cmd = none := by
  simp [announced, hcmd]

/-- What `handleCmd` returns. -/
def cmdStatus (listed : Prop) [Decidable listed] (cmd : Bytes) : HandleStatus :=
  if listed then .blacklisted else if cmd = [] then .unhandled else .success

/-- **What one command does.**  Whether it is refused depends on the hostname of the record, and if
it is not, the hostname is the one it announces, if any. -/
theorem handleCmd_spec (hs : s.Online) (sender cmd : Bytes) :
    ∃ mi, s.handleCmd sender cmd =
        (cmdStatus (Listed s.blacklist s.hostname) cmd, { s with metaInfo := mi }) ∧
      Online { s with metaInfo := mi } ∧
      (hostname { s with metaInfo := mi }).map lowered =
        (if Listed s.blacklist s.hostname then s.hostname
          else (announced cmd).or s.hostname).map lowered := by
  obtain ⟨mi, hcheck, hon, hhost⟩ := checkBlacklistAndMaybeClose_spec hs
  unfold handleCmd cmdStatus
  simp only [hcheck]
  by_cases hlisted : Listed s.blacklist s.hostname
  · exact ⟨mi, by simp [hlisted], hon, by simp [hlisted, hhost]⟩
  · simp only [hlisted, decide_false, Bool.false_eq_true, if_false]
    by_cases hmeta : cmd.head? = some (byte '#')
    · have hempty : cmd ≠ [] := by
        rintro rfl
        cases hmeta
      obtain ⟨mi', heq, hon', hhost'⟩ := handleMetaInfo_spec hon sender hmeta
      refine ⟨mi', by simp [hempty, hmeta, heq], hon', ?_⟩
      rw [hhost', Option.map_or, Option.map_or, hhost]
    · refine ⟨mi, by split_ifs <;> rfl, hon, ?_⟩
      rw [announced_of_head hmeta, Option.none_or, hhost]

/-- One command, written down. -/
theorem receive_spec (hs : s.Online) (sender cmd : Bytes) :
    (receive sender s cmd).2.blacklist = s.blacklist ∧ (receive sender s cmd).2.Online ∧
      (receive sender s cmd).2.handled = s.handled ++
        [⟨sender, cmd, s.blacklist, cmdStatus (Listed s.blacklist s.hostname) cmd⟩] ∧
      (receive sender s cmd).2.hostname.map lowered =
        (if Listed s.blacklist s.hostname then s.hostname
          else (announced cmd).or s.hostname).map lowered := by
  obtain ⟨mi, heq, hon, hhost⟩ := handleCmd_spec hs sender cmd
  unfold receive
  rw [heq]
  exact ⟨rfl, hon, rfl, hhost⟩

/-! ### The hostname announced last -/

/-- The hostname in the record is the one announced last, and what was returned for every command
depends on the one announced last before it. -/
def Inv (s : UdpServer) : Prop :=
  s.Online ∧ s.hostname.map lowered = (lastAnnounced s.handled).map lowered ∧
    ∀ pre e post, s.handled = pre ++ e :: post →
      (e.status = .blacklisted ↔ Listed e.blacklist (lastAnnounced pre))

theorem listed_congr {blacklist : List Bytes} {host host' : Option Bytes}
    (h : host.map lowered = host'.map lowered) :
    Listed blacklist host ↔ Listed blacklist host' := by
  unfold Listed
  rw [h]

theorem cmdStatus_eq_blacklisted {listed : Prop} [Decidable listed] {cmd : Bytes} :
    cmdStatus listed cmd = .blacklisted ↔ listed := by
  unfold cmdStatus
  split_ifs <;> simp_all

theorem announced_nil : announced [] = none := by
  simp [announced]

theorem inv_receive (sender : Bytes) (cmd : Bytes) (hs : s.Inv) :
    (receive sender s cmd).2.Inv := by
  obtain ⟨hon, hhost, hlog⟩ := hs
  obtain ⟨-, hon', hhandled, hhost'⟩ := receive_spec hon sender cmd
  have hlisted : Listed s.blacklist s.hostname ↔ Listed s.blacklist (lastAnnounced s.handled) :=
    listed_congr hhost
  refine ⟨hon', ?_, fun pre e post h => ?_⟩
  · rw [hhost', hhandled, lastAnnounced_append]
    unfold cmdStatus
    by_cases h : Listed s.blacklist s.hostname
    · simp [h, hhost]
    · by_cases hempty : cmd = []
      · simp [h, hempty, announced_nil, hhost]
      · simp [h, hempty, Option.map_or, hhost]
  · rw [hhandled] at h
    -- the command is the new one, or stands in the old list
    rcases List.eq_nil_or_concat post with rfl | ⟨post', e', rfl⟩
    · obtain ⟨rfl, hlast⟩ := List.append_inj' h rfl
      obtain rfl := (List.cons.inj hlast).1
      exact cmdStatus_eq_blacklisted.trans hlisted
    · rw [List.concat_eq_append, ← List.cons_append, ← List.append_assoc] at h
      exact hlog pre e post' (List.append_inj' h rfl).1

/-- What every command and every load keeps, every event keeps. -/
theorem step_invariant {I : UdpServer → Prop}
    (hcmd : ∀ sender s cmd, I s → I (receive sender s cmd).2)
    (hload : ∀ s content, I s → I { s with blacklist := loadBlacklist content }) (e : UdpEvent)
    (hs : I s) : I (s.step e) := by
  cases e with
  | datagram sender d =>
    rw [step, onUdpRecv_snd]
    exact Run.invariant (hcmd sender) hs (udpCommands d)
  | load content => exact hload s content hs

theorem inv_run (content : Bytes) (es : List UdpEvent) : ((start content).run es).Inv := by
  have hstart : (start content).Inv := by
    refine ⟨nofun, rfl, fun pre e post h => ?_⟩
    simp [start] at h
  refine Run.invariant (I := Inv) (fun s e hs => ?_) hstart es
  exact step_invariant (I := Inv) (fun sender s cmd => inv_receive sender cmd) (fun s c h => h) e hs

/-! ### Two runs -/

/-- The commands of senders other than `a`. -/
def others (a : Bytes) (s : UdpServer) : List HandledCmd := s.handled.filter (·.sender ≠ a)

/-- Two servers that know the same hostname. -/
def SameHost (a : Bytes) (s s' : UdpServer) : Prop :=
  s.Online ∧ s'.Online ∧ s.blacklist = s'.blacklist ∧
    s.hostname.map lowered = s'.hostname.map lowered ∧ others a s = others a s'

/-- Two servers that both refuse commands, or both do not. -/
def SameListed (blacklist : List Bytes) (a : Bytes) (s s' : UdpServer) : Prop :=
  s.Online ∧ s'.Online ∧ s.blacklist = blacklist ∧ s'.blacklist = blacklist ∧
    (Listed blacklist s.hostname ↔ Listed blacklist s'.hostname) ∧ others a s = others a s'

variable {a : Bytes}

theorem others_receive_self (hs : s.Online) (cmd : Bytes) :
    others a (receive a s cmd).2 = others a s := by
  obtain ⟨-, -, hhandled, -⟩ := receive_spec hs a cmd
  simp [others, hhandled]

theorem others_receive (hs : s.Online) (hs' : s'.Online) (hbl : s.blacklist = s'.blacklist)
    (hlisted : Listed s.blacklist s.hostname ↔ Listed s'.blacklist s'.hostname)
    (hothers : others a s = others a s') (sender cmd : Bytes) :
    others a (receive sender s cmd).2 = others a (receive sender s' cmd).2 := by
  obtain ⟨-, -, hhandled, -⟩ := receive_spec hs sender cmd
  obtain ⟨-, -, hhandled', -⟩ := receive_spec hs' sender cmd
  unfold others at hothers ⊢
  simp only [hhandled, hhandled', List.filter_append, hothers, hbl, cmdStatus] at hlisted ⊢
  simp only [hlisted]

theorem sameHost_receive (sender cmd : Bytes) (h : SameHost a s s') :
    SameHost a (receive sender s cmd).2 (receive sender s' cmd).2 := by
  obtain ⟨hon, hon', hbl, hhost, hothers⟩ := h
  have hlisted : Listed s.blacklist s.hostname ↔ Listed s'.blacklist s'.hostname := by
    rw [hbl]
    exact listed_congr hhost
  obtain ⟨hb, ho, -, hh⟩ := receive_spec hon sender cmd
  obtain ⟨hb', ho', -, hh'⟩ := receive_spec hon' sender cmd
  refine ⟨ho, ho', by rw [hb, hb', hbl], ?_, others_receive hon hon' hbl hlisted hothers sender cmd⟩
  rw [hh, hh']
  by_cases hl : Listed s'.blacklist s'.hostname
  · rw [if_pos hl, if_pos (hlisted.2 hl), hhost]
  · rw [if_neg hl, if_neg (hlisted.not.2 hl), Option.map_or, Option.map_or, hhost]

theorem sameHost_receive_self {cmd : Bytes} (hcmd : announced cmd = none) (h : SameHost a s s') :
    SameHost a (receive a s cmd).2 s' := by
  obtain ⟨hon, hon', hbl, hhost, hothers⟩ := h
  obtain ⟨hb, ho, -, hh⟩ := receive_spec hon a cmd
  refine ⟨ho, hon', by rw [hb, hbl], ?_, (others_receive_self hon cmd).trans hothers⟩
  rw [hh, hcmd, Option.none_or, ite_self, hhost]

/-- With one blacklist, a server refuses commands from the first announcement of a listed host. -/
theorem listed_receive (hs : s.Online) (sender cmd : Bytes) :
    Listed s.blacklist (receive sender s cmd).2.hostname ↔
      Listed s.blacklist s.hostname ∨ Listed s.blacklist (announced cmd) := by
  obtain ⟨-, -, -, hhost⟩ := receive_spec hs sender cmd
  rw [listed_congr hhost]
  by_cases hl : Listed s.blacklist s.hostname
  · simp [hl]
  · cases hann : announced cmd with
    | none =>
      have hnone : ¬Listed s.blacklist none := by simp [Listed]
      simp [hl, hnone]
    | some host => simp [hl]

theorem sameListed_receive {blacklist : List Bytes} (sender cmd : Bytes)
    (h : SameListed blacklist a s s') :
    SameListed blacklist a (receive sender s cmd).2 (receive sender s' cmd).2 := by
  obtain ⟨hon, hon', rfl, hbl, hl, hothers⟩ := h
  obtain ⟨hb, ho, -, -⟩ := receive_spec hon sender cmd
  obtain ⟨hb', ho', -, -⟩ := receive_spec hon' sender cmd
  have hnext := listed_receive hon sender cmd
  have hnext' := listed_receive hon' sender cmd
  rw [hbl] at hnext'
  refine ⟨ho, ho', hb, by rw [hb', hbl], ?_, ?_⟩
  · rw [hnext, hnext', hl]
  · exact others_receive hon hon' hbl.symm (by rw [hbl, hl]) hothers sender cmd

theorem sameListed_receive_self {blacklist : List Bytes} {cmd : Bytes}
    (hcmd : ¬Listed blacklist (announced cmd)) (h : SameListed blacklist a s s') :
    SameListed blacklist a (receive a s cmd).2 s' := by
  obtain ⟨hon, hon', rfl, hbl, hl, hothers⟩ := h
  obtain ⟨hb, ho, -, -⟩ := receive_spec hon a cmd
  refine ⟨ho, hon', hb, hbl, ?_, (others_receive_self hon cmd).trans hothers⟩
  rw [listed_receive hon a cmd, hl, or_iff_left hcmd]

/-- The datagrams of `a` announce no hostname; or the blacklist is not loaded again, and they announce
no host on it. -/
def Quiet (content a : Bytes) (es : List UdpEvent) : Prop :=
  (∀ e ∈ es, e.isFrom a = true → ∀ cmd ∈ e.commands, announced cmd = none) ∨
    ((∀ e ∈ es, ∃ sender d, e = .datagram sender d) ∧
      ∀ e ∈ es, e.isFrom a = true →
        ∀ cmd ∈ e.commands, ¬Listed (loadBlacklist content) (announced cmd))

/-- A relation that the commands of `a` keep on one side and all commands on both sides. -/
theorem step_datagram_related {R : UdpServer → UdpServer → Prop} {sender d : Bytes}
    (hboth : ∀ s s' cmd, R s s' → R (receive sender s cmd).2 (receive sender s' cmd).2)
    (h : R s s') : R (s.step (.datagram sender d)) (s'.step (.datagram sender d)) := by
  rw [step, step, onUdpRecv_snd, onUdpRecv_snd]
  unfold handleAll
  induction udpCommands d generalizing s s' with
  | nil => exact h
  | cons cmd cmds ih => exact ih (hboth s s' cmd h)

theorem step_datagram_related_left {R : UdpServer → UdpServer → Prop} {sender d : Bytes}
    (hone : ∀ s cmd, cmd ∈ udpCommands d → R s s' → R (receive sender s cmd).2 s') (h : R s s') :
    R (s.step (.datagram sender d)) s' := by
  rw [step, onUdpRecv_snd]
  unfold handleAll
  generalize udpCommands d = cmds at hone
  induction cmds generalizing s with
  | nil => exact h
  | cons cmd cmds ih =>
    exact ih (hone s cmd List.mem_cons_self h) fun t c hc => hone t c (List.mem_cons_of_mem _ hc)

/-- Without the datagrams of a quiet sender the commands of the others are handled as before. -/
theorem others_run_filter {content : Bytes} {es : List UdpEvent} (hq : Quiet content a es) :
    others a ((start content).run es) =
      others a ((start content).run (es.filter fun e => !e.isFrom a)) := by
  have hon : (start content).Online := nofun
  rcases hq with hnone | ⟨hdatagrams, hnot⟩
  · have hrel : SameHost a ((start content).run es)
        ((start content).run (es.filter fun e => !e.isFrom a)) := by
      refine Run.related_filter _ (fun s s' e _ _ h => ?_) (fun s s' e he hp h => ?_)
        ⟨hon, hon, rfl, rfl, rfl⟩
      · cases e with
        | datagram sender d =>
          exact step_datagram_related (fun t t' cmd => sameHost_receive sender cmd) h
        | load c => exact ⟨h.1, h.2.1, rfl, h.2.2.2⟩
      · cases e with
        | datagram sender d =>
          obtain rfl : sender = a := by simpa [UdpEvent.isFrom] using hp
          refine step_datagram_related_left (R := SameHost sender) (fun t cmd hc => ?_) h
          exact sameHost_receive_self (hnone _ he (by simp [UdpEvent.isFrom]) cmd hc)
        | load c => simp [UdpEvent.isFrom] at hp
    exact hrel.2.2.2.2
  · have hrel : SameListed (loadBlacklist content) a ((start content).run es)
        ((start content).run (es.filter fun e => !e.isFrom a)) := by
      refine Run.related_filter _ (fun s s' e he _ h => ?_) (fun s s' e he hp h => ?_)
        ⟨hon, hon, rfl, rfl, Iff.rfl, rfl⟩
      · obtain ⟨sender, d, rfl⟩ := hdatagrams e he
        exact step_datagram_related (fun t t' cmd => sameListed_receive sender cmd) h
      · obtain ⟨sender, d, rfl⟩ := hdatagrams e he
        obtain rfl : sender = a := by simpa [UdpEvent.isFrom] using hp
        refine step_datagram_related_left (R := SameListed _ sender) (fun t cmd hc => ?_) h
        exact sameListed_receive_self (hnot _ he (by simp [UdpEvent.isFrom]) cmd hc)
    exact hrel.2.2.2.2.2

/-- **One blacklist entry for all datagrams.**  Whether a command of a datagram is handled depends on
the hostname that was announced last, before it, by a handled command of a datagram of any sender; it
is refused just when that is on the blacklist.  Removing or changing the datagrams of a sender never
changes whether the commands of the others are handled if these datagrams announce no hostname, or if
the blacklist stays as it is and they announce no host that is on it. -/
theorem blacklist_of_all_senders (content : Bytes) (es : List UdpEvent) :
    (∀ pre e post, ((start content).run es).handled = pre ++ e :: post →
      (e.status = .blacklisted ↔ Listed e.blacklist (lastAnnounced pre))) ∧
    ∀ (a : Bytes) (es' : List UdpEvent),
      (es.filter fun e => !e.isFrom a) = (es'.filter fun e => !e.isFrom a) →
      Quiet content a es → Quiet content a es' →
        others a ((start content).run es) = others a ((start content).run es') := by
  refine ⟨(inv_run content es).2.2, fun a es' hfilter hq hq' => ?_⟩
  rw [others_run_filter hq, others_run_filter hq', hfilter]

end UdpServer

/-- A datagram with which `x` announces the hostname `bad`. -/
def badHostEvent : UdpEvent := .datagram (bytes "x") (bytes "#hostname bad" ++ [newline])

/-- A datagram of `y` with one sample. -/
def sampleEvent : UdpEvent := .datagram (bytes "y") (bytes "cpu 1" ++ [newline])

/-- The command of `y` is refused or handled, with or without the datagram of `x`. -/
theorem blacklist_not_by_sender :
    ¬∀ (content a b : Bytes) (es : List UdpEvent), a ≠ b →
      ((UdpServer.start content).run es).handled.filter (·.sender = b) =
        ((UdpServer.start content).run (es.filter fun e => !e.isFrom a)).handled.filter
          (·.sender = b) := by
  intro h
  have hrun := h (bytes "bad") (bytes "x") (bytes "y") [badHostEvent, sampleEvent] (by decide)
  revert hrun
  decide +kernel

/-- What `x` says about its operating system has no influence on `y`. -/
theorem blacklist_of_all_senders_sample :
    UdpServer.others (bytes "x") ((UdpServer.start (bytes "bad")).run
        [.datagram (bytes "x") (bytes "#os linux" ++ [newline]), sampleEvent]) =
      UdpServer.others (bytes "x") ((UdpServer.start (bytes "bad")).run [sampleEvent]) := by
  refine (UdpServer.blacklist_of_all_senders (bytes "bad") _).2 (bytes "x") [sampleEvent] ?_ ?_ ?_
  · decide +kernel
  · exact .inl (by decide +kernel)
  · exact .inl (by decide +kernel)

end Istatd
