/-
Byte strings: their bytes, their characters, and the ways to change and show
them.
-/
import Scriptlet.Text.Basic
import Scriptlet.Text.Utf8
import Scriptlet.Text.Letter
import Scriptlet.Text.Printable
import Scriptlet.Text.CaseMap
import Scriptlet.Text.Blank
import Scriptlet.Text.Quoted
