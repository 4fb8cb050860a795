import Pvos.Checksum.Continuation

/-!
# The arguments of the socket programs

The three servers read their arguments with the same statements, and
`socksrv/socket_cl.cpp` with similar ones.  `help` exits only when `-h` is the
first argument, so further behind it is ignored, and a server that reports a bad
port goes on to listen on it.

A message of `log_msg` goes through a buffer of 1024 bytes.
-/

namespace Pvos.Socksrv

open Pvos.Support Pvos.Checksum

/-! ## Messages and the usage -/

/-- `LOG_ERROR`, `LOG_INFO` and `LOG_DEBUG`. -/
inductive LogLevel
  | error
  | info
  | debug
  deriving DecidableEq

def LogLevel.code : LogLevel → ℕ
  | .error => 0
  | .info => 1
  | .debug => 2

/-- The program stops in front of its sockets: it exits, having written
`printed` to stdout, or a message does not fit `l_buf` of `log_msg`. -/
inductive Stop
  | exits (status : ℕ) (printed : Text)
  | overflows
  deriving DecidableEq

/-- A message of the level `LOG_INFO`. -/
def infoLine (text : Text) : Text :=
  ascii "INF: " ++ text ++ [10]

/-- What `log_msg` writes to stdout; errors go to stderr. -/
def logMsg (gDebug level : LogLevel) (text : Text) : Except Stop Text :=
  if level ≠ .error ∧ gDebug.code < level.code then .ok []
  else if text.length < 1024 then
    match level with
    | .error => .ok []
    | .info => .ok (infoLine text)
    | .debug => .ok (ascii "DEB: " ++ text ++ [10])
  else .error .overflows

/-- The text of `help` in the servers, for `t_args[0]`. -/
def serverUsage (program : Text) : Text :=
  ascii "\n  Socket server example.\n\n  Use: " ++ program ++
    ascii (" [-h -d] port_number\n\n    -d  debug mode \n" ++
      "    -h  this help\n\n")

/-- The text of `help` in the client. -/
def clientUsage (program : Text) : Text :=
  ascii "\n  Socket client example.\n\n  Use: " ++ program ++
    ascii (" [-h -d] ip_or_name port_number\n\n    -d  debug mode \n" ++
      "    -h  this help\n\n")

/-- `help`, with what was printed before: it exits, or returns with
`g_debug`. -/
def help (usage : Text → Text) (args : List Text) (printed : Text)
    (gDebug : LogLevel) : Except Stop LogLevel :=
  if args.length ≤ 1 ∨ args[1]? = some (ascii "-h") then
    .error (.exits 0 (printed ++ usage (args.headD [])))
  else .ok (if args[1]? = some (ascii "-d") then .debug else gDebug)

/-! ## The loops over the arguments -/

/-- The first two branches of a pass. -/
def readOption (usage : Text → Text) (args : List Text) (arg : Text)
    (gDebug : LogLevel) : Except Stop LogLevel :=
  let gDebug := if arg = ascii "-d" then .debug else gDebug
  if arg = ascii "-h" then help usage args [] gDebug else .ok gDebug

/-- `*t_args[i] == '-'`. -/
def isOption (arg : Text) : Bool :=
  arg.head? = some 45

/-- `atoi`. -/
def atoi (text : Text) : ℤ :=
  match sscanfInt text with
  | some (num, _) => num
  | none => 0

/-- `g_debug` and `l_port` of a server. -/
structure ServerArgs where
  gDebug : LogLevel
  lPort : ℤ
  deriving DecidableEq

/-- The `for` loop of a server, which ends at the first port. -/
def serverLoop (args : List Text) :
    List Text → ServerArgs → Except Stop ServerArgs
  | [], s => .ok s
  | arg :: rest, s => do
      let gDebug ← readOption serverUsage args arg s.gDebug
      if isOption arg = false ∧ s.lPort = 0 then
        .ok ⟨gDebug, atoi arg⟩
      else serverLoop args rest ⟨gDebug, s.lPort⟩

def badPortText (lPort : ℤ) : Text :=
  ascii "Bad or missing port number " ++ decimal lPort ++ ascii "!"

def listenText (lPort : ℤ) : Text :=
  ascii "Server will listen on port: " ++ decimal lPort ++ ascii "."

/-- `main` of the servers up to the end of the loop. -/
def serverArguments (args : List Text) : Except Stop ServerArgs := do
  let gDebug ← if args.length ≤ 1 then help serverUsage args [] .info
    else .ok .info
  serverLoop args args.tail ⟨gDebug, 0⟩

/-- `main` of the servers up to the call of `socket`, with what it prints. -/
def serverMain (args : List Text) : Except Stop (ServerArgs × Text) := do
  let s ← serverArguments args
  if s.lPort ≤ 0 then
    let bad ← logMsg s.gDebug .info (badPortText s.lPort)
    let gDebug ← help serverUsage args bad s.gDebug
    let listens ← logMsg gDebug .info (listenText s.lPort)
    .ok (⟨gDebug, s.lPort⟩, bad ++ listens)
  else
    let listens ← logMsg s.gDebug .info (listenText s.lPort)
    .ok (s, listens)

/-- `g_debug`, `l_host` and `l_port` of the client. -/
structure ClientArgs where
  gDebug : LogLevel
  lHost : Option Text
  lPort : ℤ
  deriving DecidableEq

/-- The last branch of a pass. -/
def ClientArgs.take (s : ClientArgs) (arg : Text) : ClientArgs :=
  if isOption arg = false then
    if s.lHost = none then { s with lHost := some arg }
    else if s.lPort = 0 then { s with lPort := atoi arg }
    else s
  else s

/-- The `for` loop of the client. -/
def clientLoop (args : List Text) :
    List Text → ClientArgs → Except Stop ClientArgs
  | [], s => .ok s
  | arg :: rest, s => do
      let gDebug ← readOption clientUsage args arg s.gDebug
      clientLoop args rest (ClientArgs.take { s with gDebug } arg)

def missingText : Text := ascii "Host or port is missing!"

/-- The host or the port is missing. -/
def clientRefuses {α : Type} (args : List Text) (gDebug : LogLevel) :
    Except Stop α := do
  let missing ← logMsg gDebug .info missingText
  let _ ← help clientUsage args missing gDebug
  .error (.exits 1 missing)

/-- What the client prints in front of `getaddrinfo`. -/
def connectionText (host : Text) (lPort : ℤ) : Text :=
  ascii "Connection to " ++ [39] ++ host ++ [39] ++ ascii ":" ++
    decimal lPort ++ ascii "."

/-- `main` of the client up to the end of the loop. -/
def clientArguments (args : List Text) : Except Stop ClientArgs := do
  let gDebug ← if args.length ≤ 2 then help clientUsage args [] .info
    else .ok .info
  clientLoop args args.tail ⟨gDebug, none, 0⟩

/-- `main` of the client up to the call of `getaddrinfo`: the host, the port and
`g_debug`, with what it prints. -/
def clientMain (args : List Text) :
    Except Stop (Text × ℤ × LogLevel × Text) := do
  let s ← clientArguments args
  match s.lHost with
  | none => clientRefuses args s.gDebug
  | some host =>
      if s.lPort = 0 then clientRefuses args s.gDebug
      else
        let connects ← logMsg s.gDebug .info (connectionText host s.lPort)
        .ok (host, s.lPort, s.gDebug, connects)

/-! ## What the loops find -/

/-- The only arguments with which `help` exits. -/
def HelpAsked (args : List Text) : Prop :=
  args.length ≤ 1 ∨ args[1]? = some (ascii "-h")

instance (args : List Text) : Decidable (HelpAsked args) :=
  inferInstanceAs (Decidable (_ ∨ _))

/-- The level that `-d` sets. -/
def debugIf (on : Bool) (gDebug : LogLevel) : LogLevel :=
  if on then .debug else gDebug

/-- The first argument that is no option, as a number. -/
def portIn (args : List Text) : ℤ :=
  match args.find? (isOption · = false) with
  | some arg => atoi arg
  | none => 0

/-- The first of the numbers that is not zero. -/
def firstPort (args : List Text) : ℤ :=
  ((args.map atoi).find? (· ≠ 0)).getD 0

/-- The arguments that are no options. -/
def operands (args : List Text) : List Text :=
  args.filter (isOption · = false)

section Loops

variable {usage : Text → Text} {args : List Text} {arg : Text}
  {gDebug : LogLevel}

/-- An argument that sets the debug level: `-d`, or an `-h` that calls `help`
behind it. -/
def setsDebug (args : List Text) (arg : Text) : Bool :=
  arg = ascii "-d" ∨ arg = ascii "-h" ∧ args[1]? = some (ascii "-d")

theorem debugIf_debugIf (a b : Bool) :
    debugIf a (debugIf b gDebug) = debugIf (b || a) gDebug := by
  cases a <;> cases b <;> rfl

/-- What sets the level again does not change it. -/
theorem debugIf_of_imp {a b : Bool} (h : a = true → b = true) :
    debugIf a (debugIf b gDebug) = debugIf b gDebug ∧
      debugIf b (debugIf a gDebug) = debugIf b gDebug := by
  cases a with
  | true => simp [h rfl, debugIf]
  | false => exact ⟨rfl, rfl⟩

theorem help_of_not_asked (hhelp : ¬ HelpAsked args) (printed : Text) :
    help usage args printed gDebug =
      .ok (debugIf (args[1]? = some (ascii "-d")) gDebug) := by
  refine (if_neg hhelp).trans ?_
  simp [debugIf]

theorem help_of_asked (hhelp : HelpAsked args) (printed : Text) :
    help usage args printed gDebug =
      .error (.exits 0 (printed ++ usage (args.headD []))) :=
  if_pos hhelp

theorem readOption_eq (hhelp : ¬ HelpAsked args) :
    readOption usage args arg gDebug =
      .ok (debugIf (setsDebug args arg) gDebug) := by
  unfold readOption
  by_cases hh : arg = ascii "-h"
  · subst hh
    have hne : ascii "-h" ≠ ascii "-d" := by decide
    simp [help_of_not_asked hhelp, setsDebug, hne]
  · simp [hh, setsDebug, debugIf]

/-- Only options set the debug level. -/
theorem isOption_of_setsDebug (h : setsDebug args arg = true) :
    isOption arg = true := by
  simp only [setsDebug, decide_eq_true_eq] at h
  obtain rfl | ⟨rfl, -⟩ := h
  · decide
  · decide

theorem serverLoop_eq (hhelp : ¬ HelpAsked args) (rest : List Text) :
    serverLoop args rest ⟨gDebug, 0⟩ =
      .ok ⟨debugIf ((rest.takeWhile isOption).any (setsDebug args)) gDebug,
        portIn rest⟩ := by
  induction rest generalizing gDebug with
  | nil => rfl
  | cons arg rest ih =>
      rw [serverLoop, readOption_eq hhelp]
      cases hoption : isOption arg with
      | true =>
          have hport : portIn (arg :: rest) = portIn rest := by
            simp [portIn, hoption]
          simp [bind, Except.bind, hoption, hport, ih, debugIf_debugIf]
      | false =>
          have hsets : setsDebug args arg = false := by
            by_contra hsets
            simp [isOption_of_setsDebug (eq_true_of_ne_false hsets)] at hoption
          have hport : portIn (arg :: rest) = atoi arg := by
            simp [portIn, hoption]
          simp [bind, Except.bind, hoption, hport, hsets, debugIf]

theorem clientLoop_take (hhelp : ¬ HelpAsked args) (host : Text)
    (rest : List Text) (port : ℤ) :
    clientLoop args rest ⟨gDebug, some host, port⟩ =
      .ok ⟨debugIf (rest.any (setsDebug args)) gDebug, some host,
        if port = 0 then firstPort (operands rest) else port⟩ := by
  induction rest generalizing gDebug port with
  | nil =>
      by_cases hport : port = 0
      · simp [clientLoop, debugIf, hport, firstPort, operands]
      · simp [clientLoop, debugIf, hport]
  | cons arg rest ih =>
      rw [clientLoop, readOption_eq hhelp]
      cases hoption : isOption arg with
      | true =>
          have htail : operands (arg :: rest) = operands rest := by
            simp [operands, hoption]
          simp [bind, Except.bind, ClientArgs.take, hoption, htail, ih,
            debugIf_debugIf]
      | false =>
          have hcons : operands (arg :: rest) = arg :: operands rest := by
            simp [operands, hoption]
          by_cases hport : port = 0
          · by_cases hatoi : atoi arg = 0
            · simp [bind, Except.bind, ClientArgs.take, hoption, hcons, ih,
                debugIf_debugIf, hport, firstPort, hatoi]
            · simp [bind, Except.bind, ClientArgs.take, hoption, hcons, ih,
                debugIf_debugIf, hport, firstPort, hatoi]
          · simp [bind, Except.bind, ClientArgs.take, hoption, ih,
              debugIf_debugIf, hport]

theorem clientLoop_eq (hhelp : ¬ HelpAsked args) (rest : List Text) :
    clientLoop args rest ⟨gDebug, none, 0⟩ =
      .ok ⟨debugIf (rest.any (setsDebug args)) gDebug,
        (operands rest).head?, firstPort (operands rest).tail⟩ := by
  induction rest generalizing gDebug with
  | nil => rfl
  | cons arg rest ih =>
      rw [clientLoop, readOption_eq hhelp]
      cases hoption : isOption arg with
      | true =>
          have htail : operands (arg :: rest) = operands rest := by
            simp [operands, hoption]
          simp [bind, Except.bind, ClientArgs.take, hoption, htail, ih,
            debugIf_debugIf]
      | false =>
          have hcons : operands (arg :: rest) = arg :: operands rest := by
            simp [operands, hoption]
          simp [bind, Except.bind, ClientArgs.take, hoption, hcons,
            clientLoop_take hhelp, debugIf_debugIf]

end Loops

/-! ## What the programs do with their arguments -/

section Mains

variable {args : List Text} {gDebug : LogLevel} {text : Text}

/-- An option at the front is among those in front of the port. -/
theorem any_setsDebug {l : List Text}
    (hfirst : args[1]? = some (ascii "-d") → ascii "-d" ∈ l) :
    l.any (setsDebug args) = decide (ascii "-d" ∈ l) := by
  rw [Bool.eq_iff_iff, List.any_eq_true, decide_eq_true_eq]
  constructor
  · rintro ⟨arg, hmem, hsets⟩
    simp only [setsDebug, decide_eq_true_eq] at hsets
    obtain rfl | ⟨-, hhelp⟩ := hsets
    · exact hmem
    · exact hfirst hhelp
  · intro hmem
    exact ⟨_, hmem, by simp [setsDebug]⟩

theorem fits_portIn (l : List Text) : FitsInt (portIn l) := by
  unfold portIn
  split
  next arg _ =>
    unfold atoi
    split
    next num n hscan =>
      obtain ⟨⟨v, m⟩, -, hnum⟩ := Option.map_eq_some_iff.mp hscan
      rw [← (Prod.mk.inj hnum).1]
      exact toInt32_fits _
    next => decide
  next => decide

theorem debugIf_info_ne_error (on : Bool) : debugIf on .info ≠ .error := by
  cases on <;> decide

/-- A message that fits is printed. -/
theorem logMsg_info (hlevel : gDebug ≠ .error) (hfits : text.length < 1024) :
    logMsg gDebug .info text = .ok (infoLine text) := by
  cases gDebug with
  | error => exact absurd rfl hlevel
  | info => simp [logMsg, LogLevel.code, hfits]
  | debug => simp [logMsg, LogLevel.code, hfits]

theorem logMsg_overflows (hlevel : gDebug ≠ .error)
    (hlong : 1024 ≤ text.length) :
    logMsg gDebug .info text = .error .overflows := by
  have hfits : ¬ text.length < 1024 := Nat.not_lt.mpr hlong
  cases gDebug with
  | error => exact absurd rfl hlevel
  | info => simp [logMsg, LogLevel.code, hfits]
  | debug => simp [logMsg, LogLevel.code, hfits]

theorem exists_first (h : ¬ args.length ≤ 1) :
    ∃ program first more, args = program :: first :: more := by
  match args, h with
  | program :: first :: more, _ => exact ⟨program, first, more, rfl⟩
  | [_], h => exact absurd (Nat.le_refl 1) h
  | [], h => exact absurd (Nat.zero_le 1) h

/-- The first argument, if it is an option, is in front of the operands. -/
theorem mem_options_of_first
    (hfirst : args[1]? = some (ascii "-d")) :
    ascii "-d" ∈ args.tail.takeWhile isOption := by
  match args, hfirst with
  | program :: first :: more, hfirst =>
      obtain rfl : first = ascii "-d" := by simpa using hfirst
      exact List.mem_cons_self

theorem mem_tail_of_first (hfirst : args[1]? = some (ascii "-d")) :
    ascii "-d" ∈ args.tail :=
  (List.takeWhile_prefix isOption).subset (mem_options_of_first hfirst)

/-! ### The servers -/

theorem serverMain_of_asked (hhelp : HelpAsked args) :
    serverMain args = .error (.exits 0 (serverUsage (args.headD []))) := by
  unfold serverMain serverArguments
  by_cases hshort : args.length ≤ 1
  · simp [bind, Except.bind, hshort, help_of_asked hhelp]
  · obtain ⟨program, first, more, rfl⟩ := exists_first hshort
    obtain rfl : first = ascii "-h" := by simpa [HelpAsked] using hhelp
    simp [bind, Except.bind, serverLoop, readOption, help_of_asked hhelp]

/-- The lines a server prints in front of `socket`. -/
def serverLines (lPort : ℤ) : Text :=
  (if lPort ≤ 0 then infoLine (badPortText lPort) else []) ++
    infoLine (listenText lPort)

/-- The level of a server: an option behind the port is not read. -/
def serverDebug (args : List Text) : LogLevel :=
  debugIf (ascii "-d" ∈ args.tail.takeWhile isOption) .info

theorem length_badPortText {lPort : ℤ} (h : FitsInt lPort) :
    (badPortText lPort).length < 1024 := by
  have hdecimal := length_decimal_int h
  have htexts : (ascii "Bad or missing port number ").length = 27 ∧
      (ascii "!").length = 1 := by decide
  rw [badPortText, List.length_append, List.length_append]
  omega

theorem length_listenText {lPort : ℤ} (h : FitsInt lPort) :
    (listenText lPort).length < 1024 := by
  have hdecimal := length_decimal_int h
  have htexts : (ascii "Server will listen on port: ").length = 28 ∧
      (ascii ".").length = 1 := by decide
  rw [listenText, List.length_append, List.length_append]
  omega

theorem serverMain_eq (hhelp : ¬ HelpAsked args) :
    serverMain args =
      .ok (⟨serverDebug args, portIn args.tail⟩,
        serverLines (portIn args.tail)) := by
  have hlong : ¬ args.length ≤ 1 := fun h => hhelp (Or.inl h)
  have hagain : debugIf (args[1]? = some (ascii "-d")) (serverDebug args) =
      serverDebug args :=
    (debugIf_of_imp fun hfirst => decide_eq_true
      (mem_options_of_first (of_decide_eq_true hfirst))).1
  have hloop : serverArguments args =
      .ok ⟨serverDebug args, portIn args.tail⟩ := by
    simp [serverArguments, bind, Except.bind, hlong, serverLoop_eq hhelp,
      any_setsDebug mem_options_of_first, serverDebug]
  have hlevel : serverDebug args ≠ .error := debugIf_info_ne_error _
  have hreports :=
    logMsg_info hlevel (length_badPortText (fits_portIn args.tail))
  have hlistens :=
    logMsg_info hlevel (length_listenText (fits_portIn args.tail))
  by_cases hport : portIn args.tail ≤ 0
  · simp [serverMain, bind, Except.bind, hloop, hport, hreports,
      help_of_not_asked hhelp, hagain, hlistens, serverLines]
  · simp [serverMain, bind, Except.bind, hloop, hport, hlistens,
      serverLines]

/-! ### The client -/

theorem clientMain_of_asked (hhelp : HelpAsked args) :
    clientMain args = .error (.exits 0 (clientUsage (args.headD []))) := by
  unfold clientMain clientArguments
  by_cases hshort : args.length ≤ 2
  · simp [bind, Except.bind, hshort, help_of_asked hhelp]
  · obtain ⟨program, first, more, rfl⟩ :=
      exists_first (show ¬ args.length ≤ 1 by omega)
    obtain rfl : first = ascii "-h" := by simpa [HelpAsked] using hhelp
    simp [bind, Except.bind, clientLoop, readOption, help_of_asked hhelp]

/-- The level of the client, which reads all its options. -/
def clientDebug (args : List Text) : LogLevel :=
  debugIf (ascii "-d" ∈ args.tail) .info

theorem clientArguments_eq (hhelp : ¬ HelpAsked args) :
    clientArguments args =
      .ok ⟨clientDebug args, (operands args.tail).head?,
        firstPort (operands args.tail).tail⟩ := by
  have hagain : debugIf (ascii "-d" ∈ args.tail)
      (debugIf (args[1]? = some (ascii "-d")) .info) = clientDebug args :=
    (debugIf_of_imp fun hfirst => decide_eq_true
      (mem_tail_of_first (of_decide_eq_true hfirst))).2
  by_cases hshort : args.length ≤ 2
  · simp [clientArguments, bind, Except.bind, hshort,
      help_of_not_asked hhelp, clientLoop_eq hhelp,
      any_setsDebug mem_tail_of_first, hagain]
  · simp [clientArguments, bind, Except.bind, hshort, clientLoop_eq hhelp,
      any_setsDebug mem_tail_of_first, clientDebug]

theorem clientRefuses_eq {α : Type} (hhelp : ¬ HelpAsked args)
    (hlevel : gDebug ≠ .error) :
    (clientRefuses args gDebug : Except Stop α) =
      .error (.exits 1 (infoLine missingText)) := by
  have hmissing : logMsg gDebug .info missingText =
      .ok (infoLine missingText) := logMsg_info hlevel (by decide)
  simp [clientRefuses, bind, Except.bind, hmissing, help_of_not_asked hhelp]

theorem clientMain_of_missing (hhelp : ¬ HelpAsked args)
    (hmissing : operands args.tail = [] ∨
      firstPort (operands args.tail).tail = 0) :
    clientMain args = .error (.exits 1 (infoLine missingText)) := by
  have hlevel : clientDebug args ≠ .error := debugIf_info_ne_error _
  unfold clientMain
  rw [clientArguments_eq hhelp]
  cases hoperands : operands args.tail with
  | nil => exact clientRefuses_eq hhelp hlevel
  | cons host ports =>
      rw [hoperands] at hmissing
      have hport : firstPort ports = 0 :=
        hmissing.resolve_left (List.cons_ne_nil host ports)
      refine (if_pos hport).trans ?_
      exact clientRefuses_eq hhelp hlevel

theorem clientMain_of_target (hhelp : ¬ HelpAsked args) {host : Text}
    {ports : List Text} (hoperands : operands args.tail = host :: ports)
    (hport : firstPort ports ≠ 0) :
    clientMain args =
      if (connectionText host (firstPort ports)).length < 1024 then
        .ok (host, firstPort ports, clientDebug args,
          infoLine (connectionText host (firstPort ports)))
      else .error .overflows := by
  have hlevel : clientDebug args ≠ .error := debugIf_info_ne_error _
  unfold clientMain
  rw [clientArguments_eq hhelp, hoperands]
  refine (if_neg hport).trans ?_
  split
  next hfits =>
    simp [bind, Except.bind, logMsg_info hlevel hfits]
  next hlong =>
    simp [bind, Except.bind, logMsg_overflows hlevel (Nat.not_lt.mp hlong)]

end Mains

/-! ## All arguments -/

/-- A server exits only without arguments or with `-h` as the first one.
Otherwise it goes on to `socket` with the number in its first operand, whether
this is a port or not: a number that is not positive is reported and used. -/
theorem server_starts (args : List Text) :
    (HelpAsked args →
      serverMain args = .error (.exits 0 (serverUsage (args.headD [])))) ∧
    (¬ HelpAsked args → ∀ options rest, args.tail = options ++ rest →
      (∀ arg ∈ options, isOption arg = true) →
      (∀ arg ∈ rest.head?, isOption arg = false) →
      ∃ s, serverMain args = .ok (s, serverLines s.lPort) ∧
        s.lPort = (rest.head?.map atoi).getD 0 ∧
        (s.gDebug = .debug ↔ ascii "-d" ∈ options)) := by
  refine ⟨serverMain_of_asked, ?_⟩
  intro hhelp options rest htail hoptions hrest
  have htake : args.tail.takeWhile isOption = options := by
    rw [htail, List.takeWhile_append_of_pos hoptions]
    cases rest with
    | nil => simp
    | cons arg rest =>
        have harg : isOption arg = false := hrest arg rfl
        simp [harg]
  have hport : portIn args.tail = (rest.head?.map atoi).getD 0 := by
    have hnone : options.find? (isOption · = false) = none := by
      simpa using hoptions
    rw [portIn, htail, List.find?_append, hnone]
    cases rest with
    | nil => rfl
    | cons arg rest =>
        have harg : isOption arg = false := hrest arg rfl
        simp [harg]
  refine ⟨_, serverMain_eq hhelp, hport, ?_⟩
  rw [serverDebug, htake]
  by_cases hdebug : ascii "-d" ∈ options
  · simp [hdebug, debugIf]
  · simp [hdebug, debugIf]

/-- A name in the place of the port: the server says so, and goes on with the
number 0. -/
theorem server_starts_name :
    ∃ s, serverMain [ascii "srv", ascii "-d", ascii "http"] =
        .ok (s, infoLine (badPortText 0) ++ infoLine (listenText 0)) ∧
      s.lPort = 0 ∧ s.gDebug = .debug := by
  have hhelp : ¬ HelpAsked [ascii "srv", ascii "-d", ascii "http"] := by decide
  obtain ⟨s, hmain, hport, hdebug⟩ := (server_starts _).2 hhelp
    [ascii "-d"] [ascii "http"] rfl (by decide) (by decide)
  have hzero : s.lPort = 0 := hport.trans (by decide)
  rw [hzero] at hmain
  exact ⟨s, hmain, hzero, hdebug.mpr (by decide)⟩

/-- The client exits with the usage like a server.  Otherwise its first operand
is the host and the first number behind it that is not zero the port, and
it exits if one of them is missing; a long name of the host is written behind
the buffer of `log_msg`. -/
theorem client_starts (args : List Text) :
    (HelpAsked args →
      clientMain args = .error (.exits 0 (clientUsage (args.headD [])))) ∧
    (¬ HelpAsked args →
      (operands args.tail = [] ∨ firstPort (operands args.tail).tail = 0 →
        clientMain args = .error (.exits 1 (infoLine missingText))) ∧
      ∀ host ports, operands args.tail = host :: ports →
        firstPort ports ≠ 0 →
        clientMain args =
          if (connectionText host (firstPort ports)).length < 1024 then
            .ok (host, firstPort ports, clientDebug args,
              infoLine (connectionText host (firstPort ports)))
          else .error .overflows) :=
  ⟨clientMain_of_asked, fun hhelp => ⟨clientMain_of_missing hhelp,
    fun _ _ => clientMain_of_target hhelp⟩⟩

/-- The option between the two operands is read as well. -/
theorem client_starts_localhost :
    clientMain [ascii "cl", ascii "localhost", ascii "-d", ascii "8080"] =
      .ok (ascii "localhost", 8080, .debug,
        infoLine (connectionText (ascii "localhost") 8080)) := by
  have hhelp : ¬ HelpAsked
      [ascii "cl", ascii "localhost", ascii "-d", ascii "8080"] := by decide
  have hmain := ((client_starts _).2 hhelp).2 (ascii "localhost")
    [ascii "8080"] (by decide) (by decide)
  have hport : firstPort [ascii "8080"] = 8080 := by decide
  rw [hport] at hmain
  exact hmain.trans (if_pos (by decide))

end Pvos.Socksrv
