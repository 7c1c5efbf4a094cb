import EasyTcpServer.Buffer.MsgBufFraming
import EasyTcpServer.Lib.CString

/-!
# `MyServer::onNetMsg`

The handler of `Server.cpp` gets a pointer to the front of the receive buffer.  It casts the
pointer to the message that `cmd` names and compares the strings in it with `"root"`.  The loop
that calls it has checked that `dataLength` bytes are there, and nobody checks that these are
as many as the message has.  What stands behind a message that is too short is the next
message, or what earlier ones have left, and the comparison goes on into it.

* `onNetMsg`: the handler, over the whole buffer.
* `Decided`: the messages for which the comparison is decided inside the message.
* `reply_independent_iff`: for these, and for no other messages, the reply is a function of the
  message.
-/

namespace EasyTcpServer

/-- The commands of a message. -/
inductive Cmd where
  | login
  | loginRet
  | loginout
  | loginoutRet
  | newLogin
  | heartS2C
  | heartC2S
  | error
  deriving DecidableEq, Repr

/-- The number of a command in `enum CMD`. -/
def Cmd.toShort : Cmd → ℤ
  | .login => 0
  | .loginRet => 1
  | .loginout => 2
  | .loginoutRet => 3
  | .newLogin => 4
  | .heartS2C => 5
  | .heartC2S => 6
  | .error => 7

/-- `((DataHeader*)p)->cmd` for a pointer `p` to these bytes. -/
def cmd (bytes : List UInt8) : ℤ := short (bytes.getD 2 0) (bytes.getD 3 0)

/-- A `LoginResult` or a `LoginOutResult`.  The other bytes of a `LoginResult`, its `data`, are
never written. -/
structure ResultMsg where
  cmd : Cmd
  dataLength : ℤ
  result : ℤ
  deriving DecidableEq, Repr

namespace MyServer



/-- The offset of `userName` in `Login` and in `LoginOut`. -/
def userName : ℕ := sizeofDataHeader

/-- The offset of `PassWord` in `Login`. -/
def passWord : ℕ := userName + 32

/-- `"root"`. -/
def root : List UInt8 := literal [114, 111, 111, 116]

/-- A new `LoginResult`. -/
def loginResult (result : ℤ) : ResultMsg := ⟨.loginRet, 100, result⟩

/-- A new `LoginOutResult`. -/
def loginOutResult (result : ℤ) : ResultMsg := ⟨.loginoutRet, 8, result⟩

/-- `onNetMsg`, for a pointer to the front of the buffer: the replies given to `addSendTask`.
It has no result when a comparison leaves the buffer. -/
def onNetMsg (buf : List UInt8) : Option (List ResultMsg) :=
  if cmd buf = Cmd.login.toShort then
    (strcmp (buf.drop userName) root).bind fun user =>
      if user = 0 then
        (strcmp (buf.drop passWord) root).map fun pass =>
          if pass = 0 then [loginResult 1] else [loginResult (-1)]
      else some [loginResult (-1)]
  else if cmd buf = Cmd.loginout.toShort then
    (strcmp (buf.drop userName) root).map fun user =>
      if user = 0 then [loginOutResult 1] else [loginOutResult (-1)]
  else some []

/-! ## What the handler looks at -/

/-- `"root"` stands at an offset. -/
def IsRoot (bytes : List UInt8) (off : ℕ) : Prop := root <+: bytes.drop off

instance (bytes : List UInt8) (off : ℕ) : Decidable (IsRoot bytes off) := by
  unfold IsRoot
  infer_instance

/-- The user name and the password are `"root"`. -/
def Carries (bytes : List UInt8) : Prop := IsRoot bytes userName ∧ IsRoot bytes passWord

instance (bytes : List UInt8) : Decidable (Carries bytes) := by
  unfold Carries
  infer_instance

variable {buf m : List UInt8}

theorem strcmp_root (h : buf.length = msgBufSize) (off : ℕ) (hoff : off + 5 ≤ msgBufSize) :
    ∃ r, strcmp (buf.drop off) root = some r ∧ (r = 0 ↔ IsRoot buf off) := by
  refine strcmp_literal (by decide) ?_
  have hroot : (literal [114, 111, 111, 116]).length = 5 := rfl
  rw [hroot, List.length_drop, h]
  omega

/-- A request to log in is answered with 1 for `"root"` and `"root"`, and with -1 else. -/
theorem onNetMsg_login (h : buf.length = msgBufSize) (hcmd : cmd buf = Cmd.login.toShort) :
    onNetMsg buf = some [loginResult (if Carries buf then 1 else -1)] := by
  obtain ⟨user, huser, huser0⟩ := strcmp_root h userName (by decide)
  obtain ⟨pass, hpass, hpass0⟩ := strcmp_root h passWord (by decide)
  rw [onNetMsg, if_pos hcmd, huser, Option.bind_some, hpass, Option.map_some]
  have hcarries : Carries buf ↔ user = 0 ∧ pass = 0 := and_congr huser0.symm hpass0.symm
  by_cases huser' : user = 0
  · by_cases hpass' : pass = 0
    · rw [if_pos huser', if_pos hpass', if_pos (hcarries.mpr ⟨huser', hpass'⟩)]
    · rw [if_pos huser', if_neg hpass', if_neg (mt hcarries.mp fun h => hpass' h.2)]
  · rw [if_neg huser', if_neg (mt hcarries.mp fun h => huser' h.1)]

/-- A request to log out is answered with 1 for `"root"`, and with -1 else. -/
theorem onNetMsg_loginout (h : buf.length = msgBufSize) (hcmd : cmd buf = Cmd.loginout.toShort) :
    onNetMsg buf = some [loginOutResult (if IsRoot buf userName then 1 else -1)] := by
  obtain ⟨user, huser, huser0⟩ := strcmp_root h userName (by decide)
  rw [onNetMsg, if_neg (by rw [hcmd]; decide), if_pos hcmd, huser, Option.map_some]
  by_cases huser' : user = 0
  · rw [if_pos huser', if_pos (huser0.mp huser')]
  · rw [if_neg huser', if_neg (mt huser0.mpr huser')]

/-- Other messages are not answered. -/
theorem onNetMsg_other (hlogin : cmd buf ≠ Cmd.login.toShort)
    (hloginout : cmd buf ≠ Cmd.loginout.toShort) : onNetMsg buf = some [] := by
  rw [onNetMsg, if_neg hlogin, if_neg hloginout]

/-! ## A message and what stands behind it -/

/-- A complete message with its header. -/
def IsMessage (m : List UInt8) : Prop :=
  sizeofDataHeader ≤ dataLength m ∧ dataLength m = m.length

instance (m : List UInt8) : Decidable (IsMessage m) := by
  unfold IsMessage
  infer_instance

/-- A receive buffer with the message in front. -/
structure Holds (buf m : List UInt8) : Prop where
  length : buf.length = msgBufSize
  front : m <+: buf

/-- **The reply depends on the request alone.**  Two buffers with the message in front give the
same replies, and a result of 1 for a request to log in means that the message itself carries
the user name and the password. -/
structure Independent (m : List UInt8) : Prop where
  same : ∀ buf buf', Holds buf m → Holds buf' m → onNetMsg buf = onNetMsg buf'
  login : ∀ buf, Holds buf m → cmd m = Cmd.login.toShort → ∀ replies,
    onNetMsg buf = some replies → (∃ r ∈ replies, r.result = 1) → Carries m

/-- The comparisons are decided inside the message: it covers the fields that they read, or it
differs from `"root"` in a byte of its own.  Other commands make no comparison. -/
def Decided (m : List UInt8) : Prop :=
  (cmd m = Cmd.login.toShort →
    passWord + 5 ≤ m.length ∨ ¬ Agrees (m.drop userName) root ∨ ¬ Agrees (m.drop passWord) root) ∧
  (cmd m = Cmd.loginout.toShort →
    userName + 5 ≤ m.length ∨ ¬ Agrees (m.drop userName) root)

instance (m : List UInt8) : Decidable (Decided m) := by
  unfold Decided
  infer_instance

theorem IsMessage.four_le (h : IsMessage m) : 4 ≤ m.length := by
  obtain ⟨hle, heq⟩ := h
  rw [heq] at hle
  exact Int.ofNat_le.mp hle

/-- A message is much shorter than the buffer. -/
theorem IsMessage.length_le (h : IsMessage m) : m.length ≤ 32767 := by
  have hle : dataLength m ≤ 32767 := short_le _ _
  have heq := h.2
  omega

/-- `cmd` is a part of the message. -/
theorem Holds.cmd_eq (h : Holds buf m) (hm : IsMessage m) : cmd buf = cmd m := by
  obtain ⟨zs, rfl⟩ := h.front
  have hlen := hm.four_le
  rw [cmd, cmd, List.getD_append _ _ _ _ (by omega), List.getD_append _ _ _ _ (by omega)]

/-- What stands at an offset of a message stands there in the buffer, and what stands in the
buffer can be in a message that does not say otherwise. -/
theorem Holds.isRoot_iff (h : Holds buf m) {off : ℕ} (hle : off + 5 ≤ m.length) :
    IsRoot buf off ↔ IsRoot m off := by
  obtain ⟨zs, rfl⟩ := h.front
  exact isPrefix_drop_append_iff hle

theorem Holds.agrees (h : Holds buf m) {off : ℕ} (hroot : IsRoot buf off) :
    Agrees (m.drop off) root := by
  obtain ⟨zs, rfl⟩ := h.front
  exact agrees_drop_of_isPrefix hroot

/-- When the comparisons are decided inside the message, their outcome is that of the
message. -/
theorem Decided.carries_iff (hdecided : Decided m) (hcmd : cmd m = Cmd.login.toShort)
    (h : Holds buf m) : Carries buf ↔ passWord + 5 ≤ m.length ∧ Carries m := by
  constructor
  · rintro ⟨huser, hpass⟩
    rcases hdecided.1 hcmd with hle | hno | hno
    · have hle' : userName + 5 ≤ m.length := le_trans (by decide) hle
      exact ⟨hle, (h.isRoot_iff hle').mp huser, (h.isRoot_iff hle).mp hpass⟩
    · exact absurd (h.agrees huser) hno
    · exact absurd (h.agrees hpass) hno
  · rintro ⟨hle, huser, hpass⟩
    have hle' : userName + 5 ≤ m.length := le_trans (by decide) hle
    exact ⟨(h.isRoot_iff hle').mpr huser, (h.isRoot_iff hle).mpr hpass⟩

theorem Decided.isRoot_iff (hdecided : Decided m) (hcmd : cmd m = Cmd.loginout.toShort)
    (h : Holds buf m) : IsRoot buf userName ↔ userName + 5 ≤ m.length ∧ IsRoot m userName := by
  constructor
  · intro huser
    rcases hdecided.2 hcmd with hle | hno
    · exact ⟨hle, (h.isRoot_iff hle).mp huser⟩
    · exact absurd (h.agrees huser) hno
  · rintro ⟨hle, huser⟩
    exact (h.isRoot_iff hle).mpr huser

theorem Decided.independent (hm : IsMessage m) (hdecided : Decided m) : Independent m := by
  constructor
  · intro buf buf' h h'
    by_cases hlogin : cmd m = Cmd.login.toShort
    · have hiff : Carries buf ↔ Carries buf' :=
        (hdecided.carries_iff hlogin h).trans (hdecided.carries_iff hlogin h').symm
      rw [onNetMsg_login h.length ((h.cmd_eq hm).trans hlogin),
        onNetMsg_login h'.length ((h'.cmd_eq hm).trans hlogin)]
      simp only [hiff]
    · by_cases hloginout : cmd m = Cmd.loginout.toShort
      · have hiff : IsRoot buf userName ↔ IsRoot buf' userName :=
          (hdecided.isRoot_iff hloginout h).trans (hdecided.isRoot_iff hloginout h').symm
        rw [onNetMsg_loginout h.length ((h.cmd_eq hm).trans hloginout),
          onNetMsg_loginout h'.length ((h'.cmd_eq hm).trans hloginout)]
        simp only [hiff]
      · rw [onNetMsg_other (by rwa [h.cmd_eq hm]) (by rwa [h.cmd_eq hm]),
          onNetMsg_other (by rwa [h'.cmd_eq hm]) (by rwa [h'.cmd_eq hm])]
  · rintro buf h hlogin replies hreplies ⟨r, hr, hone⟩
    rw [onNetMsg_login h.length ((h.cmd_eq hm).trans hlogin), Option.some.injEq] at hreplies
    by_cases hcarries : Carries buf
    · exact ((hdecided.carries_iff hlogin h).mp hcarries).2
    · rw [← hreplies, if_neg hcarries, List.mem_singleton] at hr
      rw [hr] at hone
      exact absurd hone (by decide)

/-! ## The buffers that make a difference -/

/-- The bytes of a `Login` with `"root"` in both fields, and more behind them. -/
def loginRoot : List UInt8 :=
  [100, 0, 0, 0] ++ (root ++ (List.replicate 27 0 ++ (root ++ List.replicate 51159 0)))

/-- The message, with the rest of such a `Login` behind it. -/
def withLogin (m : List UInt8) : List UInt8 := m ++ loginRoot.drop m.length

/-- The message, with bytes behind it that end no string. -/
def withOnes (m : List UInt8) : List UInt8 := m ++ List.replicate (msgBufSize - m.length) 1

theorem length_loginRoot : loginRoot.length = msgBufSize := by
  simp only [loginRoot, List.length_append, List.length_replicate]
  rfl

theorem isRoot_loginRoot : Carries loginRoot :=
  ⟨List.prefix_append root _, List.prefix_append root _⟩

theorem holds_withLogin (hm : IsMessage m) : Holds (withLogin m) m := by
  refine ⟨?_, List.prefix_append m _⟩
  have hle := hm.length_le
  have hlen := length_loginRoot
  rw [withLogin, List.length_append, List.length_drop, hlen]
  unfold msgBufSize
  omega

theorem holds_withOnes (hm : IsMessage m) : Holds (withOnes m) m := by
  refine ⟨?_, List.prefix_append m _⟩
  have hle := hm.length_le
  rw [withOnes, List.length_append, List.length_replicate]
  unfold msgBufSize
  omega

/-- A field that the message leaves open is `"root"` in the one buffer and not in the other. -/
theorem isRoot_withLogin {off : ℕ} (hroot : IsRoot loginRoot off)
    (hagrees : Agrees (m.drop off) root) : IsRoot (withLogin m) off :=
  hagrees.isPrefix_drop hroot

theorem not_isRoot_withOnes {off : ℕ} (hlt : m.length < off + 5) (hoff : off + 5 ≤ msgBufSize) :
    ¬ IsRoot (withOnes m) off := by
  have hroot : root.length = 5 := rfl
  refine not_isPrefix_drop (by decide) (by decide) (by omega) ?_
  omega

theorem Independent.decided (hm : IsMessage m) (h : Independent m) : Decided m := by
  have hlogin := holds_withLogin hm
  have hones := holds_withOnes hm
  have hsame := h.same _ _ hlogin hones
  constructor
  · intro hcmd
    by_contra hopen
    obtain ⟨hlt, huser, hpass⟩ : m.length < passWord + 5 ∧ Agrees (m.drop userName) root ∧
        Agrees (m.drop passWord) root := by
      simpa only [not_or, not_not, not_le] using hopen
    have hyes : Carries (withLogin m) :=
      ⟨isRoot_withLogin isRoot_loginRoot.1 huser, isRoot_withLogin isRoot_loginRoot.2 hpass⟩
    have hno : ¬ Carries (withOnes m) := fun hc => not_isRoot_withOnes hlt (by decide) hc.2
    rw [onNetMsg_login hlogin.length ((hlogin.cmd_eq hm).trans hcmd), if_pos hyes,
      onNetMsg_login hones.length ((hones.cmd_eq hm).trans hcmd), if_neg hno] at hsame
    exact absurd hsame (by decide)
  · intro hcmd
    by_contra hopen
    obtain ⟨hlt, huser⟩ : m.length < userName + 5 ∧ Agrees (m.drop userName) root := by
      simpa only [not_or, not_not, not_le] using hopen
    have hyes : IsRoot (withLogin m) userName := isRoot_withLogin isRoot_loginRoot.1 huser
    have hno : ¬ IsRoot (withOnes m) userName := not_isRoot_withOnes hlt (by decide)
    rw [onNetMsg_loginout hlogin.length ((hlogin.cmd_eq hm).trans hcmd), if_pos hyes,
      onNetMsg_loginout hones.length ((hones.cmd_eq hm).trans hcmd), if_neg hno] at hsame
    exact absurd hsame (by decide)

/-- **When the reply depends on the request alone.**  A complete message gets the same reply
whatever stands behind it, and no one is logged in whose message does not carry `"root"` twice,
exactly when the comparisons that the handler makes are decided inside the message. -/
theorem reply_independent_iff (m : List UInt8) (hm : IsMessage m) :
    Independent m ↔ Decided m :=
  ⟨Independent.decided hm, Decided.independent hm⟩

/-- A `Login` that is as long as it should be. -/
theorem reply_independent_login :
    Independent ([100, 0, 0, 0] ++ (root ++ (List.replicate 27 0 ++ (root ++
      List.replicate 59 0)))) :=
  (reply_independent_iff _ (by decide)).mpr (by decide)

/-- A header alone, with the command to log in.  Behind it stands the rest of a `Login`, or
nothing of the kind: the one is logged in, the other is not. -/
theorem reply_depends_on_residue :
    IsMessage [4, 0, 0, 0] ∧ ¬ Independent [4, 0, 0, 0] ∧
      Holds (withLogin [4, 0, 0, 0]) [4, 0, 0, 0] ∧
      onNetMsg (withLogin [4, 0, 0, 0]) = some [loginResult 1] ∧
      Holds (withOnes [4, 0, 0, 0]) [4, 0, 0, 0] ∧
      onNetMsg (withOnes [4, 0, 0, 0]) = some [loginResult (-1)] ∧ ¬ Carries [4, 0, 0, 0] := by
  have hm : IsMessage [4, 0, 0, 0] := by decide
  refine ⟨hm, fun h => absurd (h.decided hm) (by decide), holds_withLogin hm, ?_,
    holds_withOnes hm, ?_, by decide⟩
  · have hyes : Carries (withLogin [4, 0, 0, 0]) :=
      ⟨isRoot_withLogin isRoot_loginRoot.1 (by decide),
        isRoot_withLogin isRoot_loginRoot.2 (by decide)⟩
    rw [onNetMsg_login (holds_withLogin hm).length ((holds_withLogin hm).cmd_eq hm),
      if_pos hyes]
  · have hno : ¬ Carries (withOnes [4, 0, 0, 0]) :=
      fun hc => not_isRoot_withOnes (by decide) (by decide) hc.2
    rw [onNetMsg_login (holds_withOnes hm).length ((holds_withOnes hm).cmd_eq hm), if_neg hno]

end MyServer
end EasyTcpServer
