/-
The syntax tree of the shell (user_program/src/bin/sh/ast.rs).

A string is its list of characters; where the source looks at bytes, these
are the bytes of their UTF-8 encoding.
-/
import Mathlib.Data.List.Basic

namespace LinuxRs.Shell

abbrev Text := List Char

inductive ParamOp
  | dashUnset
  | dashNull
  | eqUnset
  | eqNull
  | plusUnset
  | plusNull
  | qmarkUnset
  | qmarkNull

inductive Seg
  | lit (text : Text)
  | sQuoted (text : Text)
  | dQuoted (segs : List Seg)
  | param (name : Text) (op : Option ParamOp) (arg : Option (List Seg))
      (length : Bool)
  | cmdSub (src : Text)
  | arith (src : Text)
  | tilde (name : Text)

abbrev Word := List Seg

inductive RedirOp
  | read
  | out
  | append
  | clobber
  | dupOut
  | dupIn
  | outBoth
  deriving DecidableEq

inductive RedirTarget
  | file (word : Word)
  | fd (word : Word)

/-- `Redir`; the descriptor is an `i32` that was read from digits. -/
structure Redir where
  fd : Option Nat
  op : RedirOp
  target : RedirTarget

structure Assignment where
  name : Text
  value : Word

structure SimpleCmd where
  assigns : List Assignment
  words : List Word
  redirs : List Redir

inductive AndOrOp
  | and
  | or
  deriving DecidableEq

inductive Sep
  | seq
  | bg

/-- `Cmd`: the tree that the parser builds and `exec` walks. -/
inductive Cmd
  | simple (cmd : SimpleCmd)
  | pipeline (negated : Bool) (parts : List Cmd)
  | andOr (left : Cmd) (op : AndOrOp) (right : Cmd)
  | list (items : List (Cmd × Sep))
  | subshell (body : Cmd) (redirs : List Redir)
  | group (body : Cmd) (redirs : List Redir)
  | ifThen (cond thenCmd : Cmd) (elifs : List (Cmd × Cmd)) (els : Option Cmd)
      (redirs : List Redir)
  | whileDo (cond body : Cmd) (untilDo : Bool) (redirs : List Redir)
  | forIn (var : Text) (words : Option (List Word)) (body : Cmd)
      (redirs : List Redir)
  | funcDef (name : Text) (body : Cmd)
  | empty

end LinuxRs.Shell
