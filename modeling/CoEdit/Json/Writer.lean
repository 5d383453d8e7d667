import CoEdit.Json.Basic

/-!
# Writing JSON

The compact form has no blanks. The indented form puts every element and member of a container on a
line of its own, two blanks deeper than the container, unless the container is empty. Strings escape
only what they must: quotes, backslashes and control characters.
-/

namespace CoEdit.Json

def hexDigit (n : Nat) : Char := (Nat.digitChar n)

def escape (c : Char) : List Char :=
  match c with
  | '"' => ['\\', '"']
  | '\\' => ['\\', '\\']
  | '\x08' => ['\\', 'b']
  | '\x0c' => ['\\', 'f']
  | '\n' => ['\\', 'n']
  | '\r' => ['\\', 'r']
  | '\t' => ['\\', 't']
  | c =>
    if c.toNat < 0x20 then ['\\', 'u', '0', '0', hexDigit (c.toNat / 16), hexDigit (c.toNat % 16)]
    else [c]

def quote (s : String) : List Char := '"' :: s.toList.flatMap escape ++ ['"']

def atom : Json → List Char
  | null => "null".toList
  | bool b => (if b then "true" else "false").toList
  | natural n => (toString n).toList
  | decimal negative n e => ((if negative then "-" else "") ++ s!"{n}e{e}").toList
  | string s => quote s
  | array _ => ['[', ']']
  | object _ => ['{', '}']
  | unreadable => "\"\\ud800\"".toList

mutual

def chars : Json → List Char
  | array (x :: xs) => '[' :: x.chars ++ elementChars xs
  | object ((k, x) :: ms) => '{' :: quote k ++ ':' :: x.chars ++ memberChars ms
  | x => x.atom

def elementChars : List Json → List Char
  | [] => [']']
  | x :: xs => ',' :: x.chars ++ elementChars xs

def memberChars : List (String × Json) → List Char
  | [] => ['}']
  | (k, x) :: ms => ',' :: quote k ++ ':' :: x.chars ++ memberChars ms

end

def compact (x : Json) : String := String.ofList x.chars

def newline (depth : Nat) : List Char := '\n' :: List.replicate (2 * depth) ' '

mutual

def indentedChars (depth : Nat) : Json → List Char
  | array (x :: xs) =>
    '[' :: newline (depth + 1) ++ x.indentedChars (depth + 1) ++ indentedElements depth xs
  | object ((k, x) :: ms) =>
    '{' :: newline (depth + 1) ++ quote k ++ [':', ' '] ++ x.indentedChars (depth + 1) ++
      indentedMembers depth ms
  | x => x.atom

def indentedElements (depth : Nat) : List Json → List Char
  | [] => newline depth ++ [']']
  | x :: xs => ',' :: newline (depth + 1) ++ x.indentedChars (depth + 1) ++ indentedElements depth xs

def indentedMembers (depth : Nat) : List (String × Json) → List Char
  | [] => newline depth ++ ['}']
  | (k, x) :: ms =>
    ',' :: newline (depth + 1) ++ quote k ++ [':', ' '] ++ x.indentedChars (depth + 1) ++
      indentedMembers depth ms

end

def indented (x : Json) : String := String.ofList (x.indentedChars 0)

example : (object [("a", natural 1), ("b", array [null, bool true])]).compact
    = "\x7b\"a\":1,\"b\":[null,true]\x7d" := by decide +kernel

example : (object [("a", array [natural 1]), ("b", array [])]).indented
    = "\x7b\n  \"a\": [\n    1\n  ],\n  \"b\": []\n\x7d" := by decide +kernel

end CoEdit.Json
