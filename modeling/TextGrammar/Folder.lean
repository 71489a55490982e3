import TextGrammar.Compile
import TextGrammar.Text.Utf8
set_option autoImplicit false

namespace TextGrammar

structure Folder where
  files : List (String × Bytes)

namespace Folder

def isFolderPath (path : String) : Bool :=
  path != "" && (path.splitOn "/").all fun part => part == "" || part == "." || part == ".."

def read (f : Folder) (path : String) : Except FileFault (List Char) :=
  match f.files.lookup path with
  | some bytes => match Utf8.decode bytes with
    | .ok cs => .ok cs
    | .error _ => .error .notUtf8
  | none => .error (if isFolderPath path then .isDirectory else .notFound)

def compile (f : Folder) (path : String) : Except CompileError Program :=
  match f.read path with
  | .ok source => match Program.compileChars source with
    | .ok p => .ok p
    | .error e => .error (e.inFile path)
  | .error fault => .error (.unlocated (.unreadableFile fault))

end Folder
end TextGrammar
