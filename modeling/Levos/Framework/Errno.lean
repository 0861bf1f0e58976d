namespace Levos

def ENOENT : Int := 2
def ESRCH : Int := 3
def ENXIO : Int := 6
def ENOEXEC : Int := 8
def EBADF : Int := 9
def EAGAIN : Int := 11
def ENOMEM : Int := 12
def ENODEV : Int := 19
def ENOTDIR : Int := 20
def EINVAL : Int := 22
def EMFILE : Int := 24
def ENOSPC : Int := 28
def EROFS : Int := 30
def ENOSYS : Int := 35

end Levos
