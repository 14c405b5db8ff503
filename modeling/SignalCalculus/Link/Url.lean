import SignalCalculus.Machine.Fault

set_option autoImplicit false

namespace SignalCalculus.Url

open Text

def cut (c : Char) (text : List Char) : List Char × List Char :=
  (text.takeWhile (· != c), (text.dropWhile (· != c)).drop 1)

theorem bne_of_notMem {c : Char} {text : List Char} (h : c ∉ text) : ∀ d ∈ text, (d != c) = true :=
  fun _ hd => bne_iff_ne.2 fun hsame => h (hsame ▸ hd)

theorem cut_append_cons {c : Char} {before : List Char} (h : c ∉ before) (after : List Char) :
    cut c (before ++ c :: after) = (before, after) := by
  rw [cut, List.takeWhile_append_of_pos (bne_of_notMem h), List.dropWhile_append_of_pos (bne_of_notMem h)]
  simp

theorem cut_of_notMem {c : Char} {text : List Char} (h : c ∉ text) : cut c text = (text, []) := by
  have hcut : cut c (text ++ []) = (text ++ [], []) := by
    rw [cut, List.takeWhile_append_of_pos (bne_of_notMem h),
      List.dropWhile_append_of_pos (bne_of_notMem h)]
    rfl
  rwa [List.append_nil] at hcut

def isSchemeChar (c : Char) : Bool := c.isAlphanum || c == '+' || c == '-' || c == '.'

/-- An address without the controls and spaces before it and without tabs and line ends in it. -/
def cleaned (url : List Char) : List Char :=
  (url.dropWhile (·.toNat ≤ 0x20)).filter fun c => c != '\t' && c != '\r' && c != '\n'

def isScheme (text : List Char) : Bool := text.head?.any Char.isAlpha && text.all isSchemeChar

def splitScheme (url : List Char) : List Char × List Char :=
  let (scheme, rest) := cut ':' url
  if url.contains ':' && isScheme scheme then (scheme.map Char.toLower, rest) else ([], url)

def endsHost (c : Char) : Bool := c == '/' || c == '?' || c == '#'

def splitHost : List Char → List Char × List Char
  | '/' :: '/' :: rest => (rest.takeWhile fun c => !endsHost c, rest.dropWhile fun c => !endsHost c)
  | rest => ([], rest)

def pieces (c : Char) : List Char → List (List Char)
  | [] => [[]]
  | d :: rest =>
    match pieces c rest with
    | first :: more => if d = c then [] :: first :: more else (d :: first) :: more
    | [] => [[d]]

def isDottedQuad (host : List Char) : Bool :=
  let parts := pieces '.' host
  parts.length == 4 && parts.all fun part =>
    !part.isEmpty && part.all Char.isDigit && part.length ≤ 3 && (part.length == 1 || part.head? != some '0') &&
      (natural? part).any (· ≤ 255)

def isHex (c : Char) : Bool :=
  c.isDigit || ('a' ≤ c && c ≤ 'f') || ('A' ≤ c && c ≤ 'F')

def isGroup (part : List Char) : Bool := !part.isEmpty && part.length ≤ 4 && part.all isHex

/-- Groups with colons between them: eight, or fewer with one gap. -/
def isGroups (parts : List (List Char)) : Bool :=
  let inner := parts.drop 1 |>.dropLast
  let gaps := (inner.filter List.isEmpty).length
  let first := parts.headD []
  let last := parts.getLastD []
  if gaps = 0 then parts.length == 8 && parts.all isGroup
  else
    let before := (parts.takeWhile fun part => !part.isEmpty)
    let startsInGap := first.isEmpty && (inner.headD ['x']).isEmpty
    let endsInGap := last.isEmpty && (inner.getLastD ['x']).isEmpty
    let groups := parts.filter fun part => !part.isEmpty
    gaps == 1 && groups.all isGroup && groups.length ≤ 7 && (!before.isEmpty || startsInGap) &&
      (!last.isEmpty || endsInGap)

def isGroupAddress (host : List Char) : Bool :=
  let zone := (host.dropWhile (· != '%'))
  let zoneFits := zone.isEmpty || (1 < zone.length && !(zone.drop 1).contains '%')
  let parts := pieces ':' (host.takeWhile (· != '%'))
  let last := parts.getLastD []
  let whole :=
    if last.contains '.' then
      if isDottedQuad last then some (parts.dropLast ++ [['0'], ['0']]) else none
    else some parts
  zoneFits && 3 ≤ parts.length && whole.any fun parts => parts.length ≤ 9 && isGroups parts

def isFutureHost : List Char → Bool
  | 'v' :: rest =>
    let version := rest.takeWhile isHex
    match rest.dropWhile isHex with
    | '.' :: name => !version.isEmpty && !name.isEmpty && !name.contains '\n'
    | _ => false
  | _ => false

def checkHost (host : List Char) : Except RequestError Unit :=
  if host.contains '[' != host.contains ']' then .error .badBrackets
  else if !host.contains '[' then .ok ()
  else
    let inner := ((host.dropWhile (· != '[')).drop 1).takeWhile (· != ']')
    if inner.head? == some 'v' then if isFutureHost inner then .ok () else .error .badFutureHost
    else if isDottedQuad inner then .error .bracketedQuad
    else if isGroupAddress inner then .ok ()
    else .error (.notHost inner)

structure Parts where
  scheme : List Char
  host : List Char
  path : List Char
  query : List Char
  fragment : List Char
  deriving DecidableEq

/-- The parts of an address whose scheme and host have been split off: the fragment is what stands
    behind the first number sign, the query what stands before it and behind the first question
    mark. -/
def Parts.ofRest (scheme host rest : List Char) : Parts :=
  let (rest, fragment) := cut '#' rest
  let (path, query) := cut '?' rest
  ⟨scheme, host, path, query, fragment⟩

def split (url : List Char) : Except RequestError Parts :=
  let (scheme, rest) := splitScheme (cleaned url)
  let (host, rest) := splitHost rest
  (checkHost host).map fun () => Parts.ofRest scheme host rest

def query (url : List Char) : Except RequestError (List Char) := (split url).map Parts.query

def isPlain (c : Char) : Bool := c.isAlphanum || c == '_' || c == '.' || c == '-' || c == '~'

def percent (byte : UInt8) : List Char :=
  '%' :: (hex 2 byte.toNat).map Char.toUpper

/-- A character in a form: a space is a plus sign, and what is not plain is its bytes. -/
def formChar (c : Char) : List Char :=
  if isPlain c then [c]
  else if c = ' ' then ['+']
  else (String.utf8EncodeChar c).flatMap percent

/-- An address with a key as its last parameter; an empty key adds nothing. -/
def withKey (url : List Char) (key : Option (List Char)) : Except RequestError (List Char) :=
  match key with
  | none | some [] => .ok url
  | some key => do
    let mark := if (← query url).isEmpty then '?' else '&'
    return url ++ mark :: ("apiKey=".toList ++ key.flatMap formChar)

/-- An address without blanks, angle brackets and the word `URL:` around it. -/
def unwrapped (url : List Char) : List Char :=
  let url := trim url
  let url :=
    match url with
    | '<' :: rest => if rest.getLast? = some '>' then trim rest.dropLast else url
    | _ => url
  match url with
  | 'U' :: 'R' :: 'L' :: ':' :: rest => trim rest
  | _ => url

def withoutEmptyFragment (url : List Char) : List Char :=
  if url.getLast? = some '#' then url.dropLast else url

def hasScheme (url : List Char) : Bool :=
  let isEnd := fun c => c == '/' || c == ':'
  let base := if url.contains '#' then (url.reverse.dropWhile (· != '#')).drop 1 |>.reverse else url
  !(base.takeWhile fun c => !isEnd c).isEmpty && (base.dropWhile fun c => !isEnd c).head? == some ':'

/-- An address has to have a scheme and a host that is well formed before anything is sent to it. -/
def checkAddress (url : List Char) : Except RequestError Unit :=
  let url := unwrapped url
  let shown := withoutEmptyFragment url
  if hasScheme url then (query shown).map fun _ => () else .error (.unknownScheme shown)

end SignalCalculus.Url
