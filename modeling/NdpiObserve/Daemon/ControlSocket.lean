import NdpiObserve.Daemon.FlowReport
import NdpiObserve.Library.Numerals

/-!
# The control protocol

A client and a server of one-line commands: `ndpictl` of `cli/ndpictl.c` joins its arguments into a
buffer of `256` bytes and sends what the buffer holds; `unix_socket_handle` of
`daemon/unix_socket.c` reads at most `255` bytes, takes the first line, and finds the command by
its first words and the number of rows by a search for its keyword. The write of the client reaches
the read of the server whole. A buffer that holds a string is the string.

## Main definitions

* `ndpictl`: what the client sends for its arguments.
* `unixSocketHandle`: the reply to a request.
* `Command`: the commands of the usage text, with their arguments and what they ask for.

## Main results

* `request_line`: the server acts on the arguments joined by blanks, up to the size of the buffer
  and the end of the first line, whatever the arguments are.
* `command_reply`: the server answers each command with the report that it asks for, with its
  number.
-/

namespace NdpiObserve

/-! ### The client -/

/-- `sizeof(cmd)`. -/
def cmdSize : ℕ := 256

/-- `strncat(cmd, src, sizeof(cmd) - strlen(cmd) - 1)`. -/
def catCmd (cmd src : Bytes) : Bytes := cmd ++ (cString src).take (cmdSize - cmd.length - 1)

/-- The loop over the arguments, from `argv[i]` on. -/
def catArgs : ℕ → Bytes → List Bytes → Bytes
  | _, cmd, [] => cmd
  | i, cmd, arg :: rest =>
    let cmd := if i > 1 then catCmd cmd (text " ") else cmd
    catArgs (i + 1) (catCmd cmd arg) rest

/-- What `ndpictl` sends for `argv[1]` and so on; without arguments it prints its usage. -/
def ndpictl (args : List Bytes) : Option Bytes :=
  if args = [] then none else some (catCmd (catArgs 1 [] args) (text "\n"))

/-! ### The server -/

/-- `strtol(s, NULL, 10)` for a `long` of 64 bits. -/
def strtol (s : Bytes) : ℤ := max (-2 ^ 63) (min (2 ^ 63 - 1) (Numerals.readInt s))

/-- `atoi`, the conversion of `strtol` to an `int`. -/
def atoi (s : Bytes) : ℤ := (strtol s).bmod (2 ^ 32)

/-- `strstr(s, needle)`: the rest of the string from the first occurrence on. -/
def strstrFrom (needle : Bytes) : Bytes → Option Bytes
  | [] => if needle = [] then some [] else none
  | b :: rest =>
    if needle.isPrefixOf (b :: rest) then some (b :: rest) else strstrFrom needle rest

/-- The number behind a keyword, or a default. -/
def keywordNumber (keyword : String) (default : ℤ) (buf : Bytes) : ℤ :=
  match strstrFrom (text keyword) buf with
  | some p => atoi (p.drop (text keyword).length)
  | none => default

/-- `handle_show_version`; `revision` is `ndpi_revision()`. -/
def handleShowVersion (revision : Bytes) : List Bytes :=
  [text "ndpi-observe " ++ text "0.1.0" ++ text "  libndpi " ++ cString revision ++ text "\n"]

/-- The string in `buf` once the line end is stripped. -/
def requestLine (req : Bytes) : Bytes :=
  cString ((req.take (cmdSize - 1)).takeWhile fun b => b ≠ 10 && b ≠ 13)

/-- The reply to the string in `buf`. -/
def dispatch (env : Env) (revision : Bytes) (e : Engine) (i : MetricsIn) (buf : Bytes) :
    List Bytes :=
  if (text "show version").isPrefixOf buf then handleShowVersion revision
  else if (text "show stats").isPrefixOf buf then handleShowStats e i
  else if (text "show applications").isPrefixOf buf then
    handleShowApplications env e i (keywordNumber "top " 20 buf)
  else if (text "show flows").isPrefixOf buf then
    handleShowFlows env e (keywordNumber "count " 50 buf)
  else
    [text "unknown command: " ++ buf ++ text "\n" ++
      text "commands: show version | show stats | " ++
      text "show applications [top N] | show flows [count N]\n"]

/-- `unix_socket_handle` on the bytes that were sent; a connection without any gets no reply. -/
def unixSocketHandle (env : Env) (revision : Bytes) (e : Engine) (i : MetricsIn) (req : Bytes) :
    Option (List Bytes) :=
  if req = [] then none else some (dispatch env revision e i (requestLine req))

/-! ### Any arguments -/

/-- The arguments joined by blanks. -/
def joined (args : List Bytes) : Bytes := List.intercalate [32] (args.map cString)

theorem catCmd_take {s : Bytes} (src : Bytes) :
    catCmd (s.take (cmdSize - 1)) src = (s ++ cString src).take (cmdSize - 1) := by
  rw [catCmd, List.take_append, List.length_take]
  congr 2
  omega

theorem joined_cons_cons (arg arg' : Bytes) (rest : List Bytes) :
    joined (arg :: arg' :: rest) = cString arg ++ 32 :: joined (arg' :: rest) := rfl

theorem catCmd_blank_take (s arg : Bytes) :
    catCmd (catCmd (s.take (cmdSize - 1)) (text " ")) arg =
      (s ++ 32 :: cString arg).take (cmdSize - 1) := by
  have hblank : cString (text " ") = [32] := by decide
  rw [catCmd_take, catCmd_take, hblank, List.append_assoc, List.singleton_append]

/-- The loop keeps the first bytes of everything. -/
theorem catArgs_take {i : ℕ} (hi : 1 < i) (s arg : Bytes) (rest : List Bytes) :
    catArgs i (s.take (cmdSize - 1)) (arg :: rest) =
      (s ++ 32 :: joined (arg :: rest)).take (cmdSize - 1) := by
  induction rest generalizing i s arg with
  | nil =>
    rw [catArgs, if_pos hi, catCmd_blank_take]
    simp [catArgs, joined]
  | cons arg' rest ih =>
    rw [catArgs, if_pos hi, catCmd_blank_take, ih (Nat.lt_succ_of_lt hi), joined_cons_cons,
      List.append_assoc, List.cons_append]

theorem catArgs_eq (args : List Bytes) :
    catArgs 1 [] args = (joined args).take (cmdSize - 1) := by
  cases args with
  | nil => rfl
  | cons arg rest =>
    have hfirst : catCmd [] arg = (cString arg).take (cmdSize - 1) := rfl
    rw [catArgs, if_neg (by decide), hfirst]
    cases rest with
    | nil => simp [catArgs, joined]
    | cons arg' rest => exact catArgs_take (by decide) (cString arg) arg' rest

theorem zero_notMem_joined (args : List Bytes) : 0 ∉ joined args := by
  induction args with
  | nil => exact List.not_mem_nil
  | cons arg rest ih =>
    cases rest with
    | nil => simpa [joined] using zero_notMem_cString arg
    | cons arg' rest =>
      rw [joined_cons_cons, List.mem_append, List.mem_cons]
      rintro (h | h | h)
      · exact zero_notMem_cString arg h
      · exact absurd h (by decide)
      · exact ih h

/-- What is cut off at the first line end is not seen behind it. -/
theorem takeWhile_append_lineEnd (s : Bytes) (n : ℕ) :
    (s ++ [10].take n).takeWhile (fun b : UInt8 => b ≠ 10 && b ≠ 13) =
      s.takeWhile fun b => b ≠ 10 && b ≠ 13 := by
  have hend : ([10].take n).takeWhile (fun b : UInt8 => b ≠ 10 && b ≠ 13) = [] := by
    cases n <;> rfl
  rw [List.takeWhile_append, hend, List.append_nil]
  split
  case isTrue h => exact ((List.takeWhile_prefix _).eq_of_length h).symm
  case isFalse => rfl

/-- The request for any arguments, and the line that the server finds in it. -/
theorem exists_request (args : List Bytes) (hargs : args ≠ []) :
    ∃ req, ndpictl args = some req ∧ req ≠ [] ∧
      requestLine req = ((joined args).take 255).takeWhile fun b => b ≠ 10 && b ≠ 13 := by
  have hnewline : cString (text "\n") = [10] := by decide
  refine ⟨(joined args ++ [10]).take (cmdSize - 1), ?_, by simp [cmdSize], ?_⟩
  · rw [ndpictl, if_neg hargs, catArgs_eq, catCmd_take, hnewline]
  · rw [requestLine, List.take_take, min_self, List.take_append, takeWhile_append_lineEnd]
    refine cString_of_notMem fun h => ?_
    exact zero_notMem_joined args (List.mem_of_mem_take ((List.takeWhile_sublist _).subset h))

/-- **What the server acts on.** Whatever the arguments of the client are, the server acts on the
first line of the first `255` bytes of the arguments joined by blanks. -/
theorem request_line (env : Env) (revision : Bytes) (e : Engine) (i : MetricsIn)
    (args : List Bytes) (hargs : args ≠ []) :
    (ndpictl args).bind (unixSocketHandle env revision e i) =
      some (dispatch env revision e i
        (((joined args).take 255).takeWhile fun b => b ≠ 10 && b ≠ 13)) := by
  obtain ⟨req, hreq, hne, hline⟩ := exists_request args hargs
  rw [hreq, Option.bind_some, unixSocketHandle, if_neg hne, hline]

/-- Arguments that name no command. -/
theorem request_line_unknown :
    (ndpictl [text "show", text "dns"]).bind
        (unixSocketHandle default [] (Engine.start [] true false) {}) =
      some (dispatch default [] (Engine.start [] true false) {}
        (((joined [text "show", text "dns"]).take 255).takeWhile fun b => b ≠ 10 && b ≠ 13)) :=
  request_line default [] (Engine.start [] true false) {} _ (List.cons_ne_nil _ _)

/-! ### The commands -/

/-- The commands of the usage text. -/
inductive Command where
  | showVersion
  | showStats
  | showApplications (top : Option ℤ)
  | showFlows (count : Option ℤ)

namespace Command

/-- The arguments of `ndpictl` for a command. -/
def args : Command → List Bytes
  | showVersion => [text "show", text "version"]
  | showStats => [text "show", text "stats"]
  | showApplications none => [text "show", text "applications"]
  | showApplications (some n) => [text "show", text "applications", text "top", decimalInt n]
  | showFlows none => [text "show", text "flows"]
  | showFlows (some n) => [text "show", text "flows", text "count", decimalInt n]

/-- The numbers of a command are values of an `int`. -/
def InRange : Command → Prop
  | showApplications (some n) | showFlows (some n) => -2 ^ 31 ≤ n ∧ n < 2 ^ 31
  | _ => True

/-- What a command asks for. -/
def report (env : Env) (revision : Bytes) (e : Engine) (i : MetricsIn) : Command → List Bytes
  | showVersion => handleShowVersion revision
  | showStats => handleShowStats e i
  | showApplications top => handleShowApplications env e i (top.getD 20)
  | showFlows count => handleShowFlows env e (count.getD 50)

end Command

/-! ### Numbers -/

theorem decimal_eq_digitBytes {n : ℕ} (hn : n ≠ 0) : decimal n = Numerals.digitBytes n := by
  rw [decimal, if_neg hn]
  rfl

theorem value_decimal (n : ℕ) : Numerals.value (decimal n) = n := by
  by_cases hn : n = 0
  · subst hn
    rfl
  · rw [decimal_eq_digitBytes hn, Numerals.value_digits]

theorem isDigit_of_mem_decimal {n : ℕ} {b : UInt8} (hb : b ∈ decimal n) :
    Numerals.isDigit b = true := by
  obtain ⟨d, hd, rfl⟩ := mem_decimal hb
  exact Numerals.isDigit_digit hd

/-- A printed number is read back. -/
theorem readInt_decimalInt (z : ℤ) : Numerals.readInt (decimalInt z) = z := by
  have hdigits : ∀ b ∈ decimal z.natAbs, Numerals.isDigit b = true :=
    fun b => isDigit_of_mem_decimal
  rw [decimalInt]
  split
  case isTrue hneg =>
    have hread := Numerals.readInt_minus hdigits Numerals.endsNumeral_nil
    rw [List.append_nil, value_decimal] at hread
    rw [hread]
    omega
  case isFalse hpos =>
    have hread := Numerals.readInt_plain hdigits (decimal_ne_nil _) Numerals.endsNumeral_nil
    rw [List.append_nil, value_decimal] at hread
    rw [hread]
    omega

/-- Every `int` is read back. -/
theorem atoi_decimalInt {z : ℤ} (hz : -2 ^ 31 ≤ z ∧ z < 2 ^ 31) : atoi (decimalInt z) = z := by
  have hclamp : strtol (decimalInt z) = z := by
    rw [strtol, readInt_decimalInt]
    omega
  rw [atoi, hclamp]
  exact Int.bmod_eq_of_le (by omega) (by omega)

theorem length_decimalInt_le {z : ℤ} (hz : -2 ^ 31 ≤ z ∧ z < 2 ^ 31) :
    (decimalInt z).length ≤ 11 := by
  have hdigits : (decimal z.natAbs).length ≤ 10 := by
    rw [length_decimal, digits, Nat.succ_le_succ_iff]
    exact Nat.lt_succ_iff.mp (Nat.log_lt_of_lt_pow' (by norm_num) (by omega))
  rw [decimalInt]
  split
  case isTrue => exact Nat.succ_le_succ hdigits
  case isFalse => omega

/-- There is no line end in a printed number. -/
theorem lineEnd_notMem_decimalInt {z : ℤ} {b : UInt8} (hb : b ∈ decimalInt z) :
    b ≠ 10 ∧ b ≠ 13 := by
  have hdecimal {n : ℕ} (h : b ∈ decimal n) : b ≠ 10 ∧ b ≠ 13 := by
    obtain ⟨d, hd, rfl⟩ := mem_decimal h
    interval_cases d <;> decide
  rw [decimalInt] at hb
  split at hb
  · rcases List.mem_cons.mp hb with rfl | hb
    · decide
    · exact hdecimal hb
  · exact hdecimal hb

/-! ### Replies -/

/-- A command with a number, up to the number, and the number. -/
theorem line_of_short {s : Bytes} {z : ℤ} (hz : -2 ^ 31 ≤ z ∧ z < 2 ^ 31) (hs : s.length ≤ 200)
    (hend : ∀ b ∈ s, b ≠ 10 ∧ b ≠ 13) :
    ((s ++ decimalInt z).take 255).takeWhile (fun b => b ≠ 10 && b ≠ 13) = s ++ decimalInt z := by
  have hlen := length_decimalInt_le hz
  rw [List.take_of_length_le (by rw [List.length_append]; omega), List.takeWhile_eq_self_iff]
  intro b hb
  rcases List.mem_append.mp hb with hb | hb
  · simpa using hend b hb
  · simpa using lineEnd_notMem_decimalInt hb

theorem joined_number {a b c s : Bytes} (ha : 0 ∉ a) (hb : 0 ∉ b) (hc : 0 ∉ c)
    (hs : a ++ 32 :: b ++ 32 :: c ++ [32] = s) (z : ℤ) :
    joined [a, b, c, decimalInt z] = s ++ decimalInt z := by
  rw [← hs]
  simp [joined, cString_of_notMem ha, cString_of_notMem hb, cString_of_notMem hc,
    cString_of_notMem (zero_notMem_decimalInt z), List.intercalate, List.intersperse]

section Dispatch

variable (env : Env) (revision : Bytes) (e : Engine) (i : MetricsIn)

theorem dispatch_applications_top {z : ℤ} (hz : -2 ^ 31 ≤ z ∧ z < 2 ^ 31) :
    dispatch env revision e i (text "show applications top " ++ decimalInt z) =
      handleShowApplications env e i z := by
  have hnumber : keywordNumber "top " 20 (text "show applications top " ++ decimalInt z) = z :=
    atoi_decimalInt hz
  rw [dispatch, hnumber]
  rfl

theorem dispatch_flows_count {z : ℤ} (hz : -2 ^ 31 ≤ z ∧ z < 2 ^ 31) :
    dispatch env revision e i (text "show flows count " ++ decimalInt z) =
      handleShowFlows env e z := by
  have hnumber : keywordNumber "count " 50 (text "show flows count " ++ decimalInt z) = z :=
    atoi_decimalInt hz
  rw [dispatch, hnumber]
  rfl

/-- **Commands.** The server answers each command with the report that it asks for, and counts the
rows that it names. -/
theorem command_reply (c : Command) (hc : c.InRange) :
    (ndpictl c.args).bind (unixSocketHandle env revision e i) =
      some (c.report env revision e i) := by
  have hsend (args : List Bytes) (hargs : args ≠ []) (line : Bytes)
      (hline : ((joined args).take 255).takeWhile (fun b => b ≠ 10 && b ≠ 13) = line) :
      (ndpictl args).bind (unixSocketHandle env revision e i) =
        some (dispatch env revision e i line) := by
    obtain ⟨req, hreq, hne, hfound⟩ := exists_request args hargs
    rw [hreq, Option.bind_some, unixSocketHandle, if_neg hne, hfound, hline]
  cases c with
  | showVersion => exact hsend _ (List.cons_ne_nil _ _) (text "show version") (by decide)
  | showStats => exact hsend _ (List.cons_ne_nil _ _) (text "show stats") (by decide)
  | showApplications top =>
    cases top with
    | none => exact hsend _ (List.cons_ne_nil _ _) (text "show applications") (by decide)
    | some z =>
      have hjoined : joined (Command.showApplications (some z)).args =
          text "show applications top " ++ decimalInt z :=
        joined_number (by decide) (by decide) (by decide) (by decide) z
      refine (hsend (Command.showApplications (some z)).args (List.cons_ne_nil _ _) _ ?_).trans
        (congrArg some (dispatch_applications_top env revision e i hc))
      rw [hjoined]
      exact line_of_short hc (by decide) (by decide +kernel)
  | showFlows count =>
    cases count with
    | none => exact hsend _ (List.cons_ne_nil _ _) (text "show flows") (by decide)
    | some z =>
      have hjoined : joined (Command.showFlows (some z)).args =
          text "show flows count " ++ decimalInt z :=
        joined_number (by decide) (by decide) (by decide) (by decide) z
      refine (hsend (Command.showFlows (some z)).args (List.cons_ne_nil _ _) _ ?_).trans
        (congrArg some (dispatch_flows_count env revision e i hc))
      rw [hjoined]
      exact line_of_short hc (by decide) (by decide +kernel)

end Dispatch

/-- The flows of an engine without any, ten of them. -/
theorem command_reply_ten_flows :
    (ndpictl (Command.showFlows (some 10)).args).bind
        (unixSocketHandle default [] (Engine.start [] true false) {}) =
      some (handleShowFlows default (Engine.start [] true false) 10) :=
  command_reply default [] (Engine.start [] true false) {} (.showFlows (some 10))
    ⟨by decide, by decide⟩

end NdpiObserve
