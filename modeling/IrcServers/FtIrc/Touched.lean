import IrcServers.FtIrc.Frames

/-!
# Channels a line may touch

`Touches` says which channels a state change may alter; all channels keep their
names and their order.  Only `JOIN` adds a channel, and the commands before the
login test touch none unless they remove their client.
-/

namespace FtIrc

open Utils Outcome

namespace Server

variable {s s' s'' : Server} {ch ch' : Channel} {client : ClientPtr} {fd : Fd} {name message : Str}
  {touched : Str → Prop} {info : ModeInfo}

/-- The channels are the same, except that those with a name in `touched` may
have been changed. -/
structure Touches (touched : Str → Prop) (s s' : Server) : Prop where
  names : s'.channels.map Channel.name = s.channels.map Channel.name
  others : ∀ name, ¬ touched name → s'.getChannel name = s.getChannel name

namespace Touches

/-- The same channels are untouched. -/
theorem of_channels (h : s'.channels = s.channels) : s.Touches touched s' where
  names := by rw [h]
  others name _ := by unfold getChannel; rw [h]

/-- No channel is touched when nothing happens. -/
theorem refl (s : Server) : s.Touches touched s := .of_channels rfl

/-- Two steps that touch such channels are one. -/
theorem trans (h : s.Touches touched s') (h' : s'.Touches touched s'') : s.Touches touched s'' where
  names := h'.names.trans h.names
  others name hname := (h'.others name hname).trans (h.others name hname)

/-- Messages touch no channel. -/
theorem sendAll (h : s.Touches touched s') (messages : List (Fd × Str)) :
    s.Touches touched (s'.sendAll messages) := h.trans (.of_channels rfl)

/-- Nor does a single one. -/
theorem send (h : s.Touches touched s') (fd : Fd) (message : Str) :
    s.Touches touched (s'.send fd message) := h.trans (.of_channels rfl)

/-- Nor does a change of a client. -/
theorem setClient (h : s.Touches touched s') (p : ClientPtr) (f : Client → Client) :
    s.Touches touched (s'.setClient p f) := h.trans (.of_channels rfl)

/-- A channel that may be touched is written back. -/
theorem putChannel (h : s.Touches touched s') (ch : Channel) (hch : ch.name = name)
    (hname : touched name) : s.Touches touched (s'.putChannel ch) := by
  subst hch
  refine h.trans ⟨?_, ?_⟩
  · simp only [Server.putChannel, List.map_map]
    apply List.map_congr_left
    intro old _
    simp only [Function.comp_apply]
    split
    · rename_i heq
      exact heq.symm
    · rfl
  · intro name hother
    exact getChannel_putChannel_of_ne s' fun heq => hother (heq ▸ hname)

end Touches

/-- To send is to touch no channel. -/
theorem Sends.touches (h : s.Sends s') : s.Touches touched s' :=
  .of_channels h.channels

/-- Commands behind the login test touch the channels they may write. -/
theorem frame_touches (s : Server) (touched : Str → Prop) : Frame touched (s.Touches touched) where
  sends h hs := h.trans hs.touches
  putChannel h _ hname hthins := h.putChannel _ hthins.name hname

/-- An exception of a client touches none. -/
theorem throwClient_touches (h : s.Touches touched s') (fd : Fd) (e : Exception) (text : Str) :
    (s'.throwClient fd e text).Leaves (s.Touches touched) :=
  leaves_thrown.mpr (h.send fd _)

/-- `Client::login` touches none. -/
theorem login_touches (h : s.Touches touched s') (client : ClientPtr) :
    (s'.login client).Leaves (s.Touches touched) := by
  unfold login
  refine .ite (fun _ => .ite (fun _ => leaves_done.mpr h) (fun _ => ?_)) (fun _ => ?_)
  · exact leaves_done.mpr ((h.sendAll _).setClient client _)
  · exact throwClient_touches h _ _ _

/-- `NICK` touches none. -/
theorem execNick_touches : (s.execNick message fd).Leaves (s.Touches touched) := by
  refine .require fun client _ => .ite (fun _ => ?_) (fun _ => ?_)
  · exact leaves_done.mpr (((Touches.refl s).send _ _).setClient client _)
  · have hnamed : s.Touches touched (s.setClient client fun c =>
        { c with nickName := (Parser.parse message).function }) :=
      (Touches.refl s).setClient client _
    dsimp only
    generalize hs : (if (s.memory client).nickName ≠ "*".toList then _ else _ : Server) = s'
    have htold : s.Touches touched s' := by
      rw [← hs]
      split
      · exact hnamed.sendAll _
      · exact hnamed
    exact .ite (fun _ => login_touches (htold.setClient client _) client)
      (fun _ => leaves_done.mpr htold)

/-- `PASS` touches none. -/
theorem execPass_touches : (s.execPass message fd).Leaves (s.Touches touched) :=
  .require fun client _ => leaves_done.mpr ((Touches.refl s).setClient client _)

/-- A `USER` that does not remove its client. -/
theorem execUser_touches (hpassword : ∀ client, s.getClient fd = some client →
    s.password = (s.memory client).password) :
    (s.execUser message fd).Leaves (s.Touches touched) := by
  refine .require fun user _ => .require fun client hc => ?_
  have hset : s.Touches touched (s.setClient client fun c =>
      { c with userName := user.1, realName := user.2 }) := (Touches.refl s).setClient client _
  have hlogin := login_touches hset client
  split
  · rename_i s' hthrown
    exact (login_ne_mismatch (by simpa [setClient] using hpassword client hc) s' hthrown).elim
  · exact hlogin

end Server

end FtIrc
