/-!
# Lists of strings (`opal/util/argv.c:180-330`, `opal/util/opal_environ.c:94-195`)

| here | there |
| --- | --- |
| `argvSplit` | `opal_argv_split`: arguments of length 0 are skipped |
| `argvJoin` | `opal_argv_join` |
| `setenv` | `opal_setenv` with `overwrite`, on an environment that is not the process's own |

A list that is `NULL` is empty here. That there is memory is assumed.
-/
namespace Sensys.Opal

def argvSplit (delimiter : Char) (t : List Char) : List (List Char) :=
  (t.splitOn delimiter).filter (· ≠ [])

def argvJoin (delimiter : Char) (ts : List (List Char)) : List Char := [delimiter].intercalate ts

def setenv (name value : List Char) (env : List (List Char)) : List (List Char) :=
  match env.findIdx? fun e => (name ++ ['=']).isPrefixOf e with
  | some i => env.set i (name ++ '=' :: value)
  | none => env ++ [name ++ '=' :: value]

end Sensys.Opal
