import LsvmTools.Strings

/-! # The boot loader's configuration

`_GetToken`, `_Parse` and what looks for the initrd in the parsed commands. A pointer into the
zero-terminated text is what is left of it before the zero. There is no result where the text
is read behind the zero and where a string does not fit into its array. -/
namespace LsvmTools.Grub.Config
open Lib.ByteString Lib.Program Strings

/-! ## Characters -/

def newline : UInt8 := 10
def semicolon : UInt8 := 59
def hash : UInt8 := 35
def backslash : UInt8 := 92

/-- `Isspace`. -/
def isspace (c : UInt8) : Bool := c = 32 || (9 ≤ c && c ≤ 13)

/-- A single or a double quote. -/
def isQuote (c : UInt8) : Bool := c = 34 || c = 39

/-! ## Tokens -/

inductive Token where
  | eof
  | newline
  | semicolon
  | word (tok : Bytes)
deriving DecidableEq

/-- One more character of the token. -/
def prepend (c : UInt8) (r : Out Unit (Bytes × Bytes)) : Out Unit (Bytes × Bytes) := do
  let (tok, rest) ← r
  pure (c :: tok, rest)

/-- The loops of `_GetToken` that build an argument, outside or inside a quotation. A backslash
takes the next character along, whatever it is. -/
def argument : Option UInt8 → Bytes → Out Unit (Bytes × Bytes)
  | _, [] => pure ([], [])
  | none, p :: rest =>
    if isspace p || p = semicolon then pure ([], p :: rest)
    else if isQuote p then argument (some p) rest
    else prepend p (argument none rest)
  | some c, p :: rest =>
    if p = c then argument none rest
    else if p = backslash then
      match rest with
      | [] => .stuck
      | q :: rest => prepend q (argument (some c) rest)
    else prepend p (argument (some c) rest)

/-- The blanks and the comment in front of a token. -/
def skipBlank (text : Bytes) : Bytes :=
  let p := text.dropWhile fun c => isspace c && c ≠ newline
  if p.head? = some hash then p.dropWhile (· ≠ newline) else p

/-- `_GetToken`: the token and what is left of the text. -/
def getToken (text : Bytes) : Out Unit (Token × Bytes) :=
  match skipBlank text with
  | [] => pure (.eof, [])
  | c :: rest =>
    if c = newline then pure (.newline, rest)
    else if c = semicolon then pure (.semicolon, rest)
    else do
      let (tok, rest) ← argument none (c :: rest)
      pure (.word tok, rest)

/-! ## Commands -/

/-- `GRUBCommand`. -/
structure GRUBCommand where
  line : Nat
  argv : List Bytes
deriving DecidableEq

/-- A command of the words so far, if there are any. -/
def command (lineno : Nat) (line : List Bytes) : List GRUBCommand :=
  if line = [] then [] else [⟨lineno, line⟩]

/-- The loop of `_Parse`: the commands from here on. -/
def parseFrom : Nat → Bytes → List Bytes → Nat → Out Unit (List GRUBCommand)
  | 0, _, _, _ => .stuck
  | fuel + 1, p, line, lineno => do
    let (tok, p) ← getToken p
    match tok with
    | .eof => pure []
    | .newline => do
      let rest ← parseFrom fuel p [] (lineno + 1)
      pure (command lineno line ++ rest)
    | .semicolon => do
      let rest ← parseFrom fuel p [] lineno
      pure (command lineno line ++ rest)
    | .word tok => parseFrom fuel p (line ++ [tok]) lineno

/-- `_Parse`. There are no more tokens than characters. -/
def parse (data : Bytes) : Out Unit (List GRUBCommand) := parseFrom (data.length + 1) data [] 1

/-! ## The default entry -/

/-- `Element`. -/
structure Element where
  index : Nat
  command : Option GRUBCommand
  initrd : Bytes

/-- The variables of the loop of `_ResolveInitrd`: the stack with all its elements, used or
not, its height, and `matched`. -/
structure Resolve where
  stack : List Element
  top : Nat
  matched : Bytes

/-- `STACK_SIZE`. -/
def stackSize : Nat := 16

/-- What `GRUBCfgFindInitrd` delivers. -/
structure Found where
  matched : Bytes
  title : Bytes
  path : Bytes
deriving DecidableEq

/-- `U64tostr`. -/
def u64tostr (n : Nat) : Bytes := (Nat.toDigits 10 n).map fun c => UInt8.ofNat c.toNat

/-- The value of "set default=value", where the value is no variable. -/
def defaultValue (commands : List GRUBCommand) : Option Bytes :=
  commands.findSome? fun cmd =>
    match cmd.argv with
    | set :: value :: _ =>
      if set = text "set" && (text "default=").isPrefixOf value &&
        (value.drop 8).head? ≠ some 36 then some (value.drop 8) else none
    | _ => none

/-- The name a level of the default entry is matched with: the words for the index, the title
and what stands before the brace. -/
def levelMatches (element : Element) (cmd : GRUBCommand) (name : Bytes) : Bool :=
  u64tostr element.index = name || cmd.argv[1]? = some name ||
    cmd.argv[cmd.argv.length - 2]? = some name

/-- The loop of `_Match`, with the number of levels matched so far and the text of these. -/
def matchFrom (pathMax : Nat) (hasDefault : Bool) (top : Nat) :
    List (Element × Bytes) → Nat → Bytes → Nat × Bytes
  | [], ms, matched => (ms, matched)
  | (element, name) :: rest, ms, matched =>
    let r := match element.command with
      | none => (ms, matched)
      | some cmd =>
        if cmd.argv.length < 3 then (ms, matched)
        else
          let r := if !hasDefault then
              (ms + 1, strlcat matched (u64tostr element.index) pathMax)
            else if levelMatches element cmd name then (ms + 1, strlcat matched name pathMax)
            else (ms, matched)
          (r.1, if r.1 ≠ top then strlcat r.2 [62] pathMax else r.2)
    matchFrom pathMax hasDefault top rest r.1 r.2

/-- `_Match`: whether there is a match, and what becomes of `matched`. -/
def matchEntry (pathMax : Nat) (names : List Bytes) (hasDefault : Bool) (s : Resolve) :
    Bool × Bytes :=
  if names.length ≠ s.top then (false, s.matched)
  else
    let r := matchFrom pathMax hasDefault s.top ((s.stack.take s.top).zip names) 0 []
    (r.1 = s.top, r.2)

/-- The element on top of the stack is a menu entry. -/
def isMenuEntry (element : Element) : Bool :=
  match element.command with
  | some cmd => cmd.argv.head? = some (text "menuentry")
  | none => false

/-- A "}": the entry that it closes where that one is the default entry, or the loop goes on. -/
def closeBlock (pathMax : Nat) (names : List Bytes) (hasDefault : Bool) (s : Resolve) :
    Out Unit (Resolve × Option Found) :=
  match s.top with
  | 0 => pure (s, none)
  | top + 1 =>
    -- reset the depth at the next level
    let stack := if s.top ≠ stackSize then s.stack.modify s.top ({ · with index := 0 }) else s.stack
    match stack[top]? with
    | none => .stuck
    | some element =>
      let (found, matched) := if isMenuEntry element
        then matchEntry pathMax names hasDefault { s with stack := stack }
        else (false, s.matched)
      if found then
        match element.command.bind (·.argv[1]?) with
        | none => .stuck
        | some title =>
          if pathMax ≤ title.length then .stuck
          else pure (s, some ⟨matched, title, element.initrd⟩)
      else
        pure (⟨stack.modify top fun e => { e with initrd := [], index := e.index + 1 }, top,
          matched⟩, none)

/-- One command in the loop of `_ResolveInitrd`. -/
def resolveStep (pathMax : Nat) (names : List Bytes) (hasDefault : Bool) (s : Resolve)
    (cmd : GRUBCommand) : Out Unit (Resolve × Option Found) :=
  match cmd.argv with
  | [] => .stuck
  | name :: args =>
    if name = text "menuentry" || name = text "submenu" then
      if s.top = stackSize then .err ()
      else pure ({ s with
        stack := s.stack.modify s.top ({ · with command := some cmd })
        top := s.top + 1 }, none)
    else if (name = text "initrd" || name = text "initrdefi") && args.length = 1 then
      match s.top with
      | 0 => pure (s, none)
      | top + 1 =>
        if (s.stack[top]?.map isMenuEntry).getD false then
          if pathMax ≤ (args.headD []).length then .stuck
          else pure ({ s with
            stack := s.stack.modify top ({ · with initrd := args.headD [] }) }, none)
        else pure (s, none)
    else if name = text "\x7d" then closeBlock pathMax names hasDefault s
    else pure (s, none)

/-- The loop of `_ResolveInitrd`. -/
def resolveFrom (pathMax : Nat) (names : List Bytes) (hasDefault : Bool) :
    List GRUBCommand → Resolve → Out Unit Found
  | [], s => pure ⟨s.matched, [], []⟩
  | cmd :: rest, s => do
    let (s, found) ← resolveStep pathMax names hasDefault s cmd
    match found with
    | some found => pure found
    | none => resolveFrom pathMax names hasDefault rest s

/-- `StrSplit` at ">". -/
def splitNames (value : Bytes) : List Bytes := (value.splitOn 62).filter (!·.isEmpty)

/-- `_ResolveInitrd`. -/
def resolveInitrd (pathMax : Nat) (commands : List GRUBCommand) : Out Unit Found :=
  if commands = [] then .err ()
  else
    let names := splitNames ((defaultValue commands).getD (text "0"))
    if names = [] then .err ()
    else resolveFrom pathMax names (defaultValue commands).isSome commands
      ⟨List.replicate stackSize ⟨0, none, []⟩, 0, []⟩

/-- `GRUBCfgFindInitrd`: the zero-terminated copy ends at the first zero of the data. -/
def grubCfgFindInitrd (pathMax : Nat) (data : Bytes) : Out Unit Found := do
  let commands ← parse (cstr data)
  resolveInitrd pathMax commands

end LsvmTools.Grub.Config
